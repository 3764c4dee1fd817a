/-
Which environment a preview's host names.

A label is an environment's ID, or a port, a dash and an ID.  Neither has a dot or a mark of a
host's port in it, so a request's host is cut where it was put together: the port goes off at its
colon, the front door's own name at the first dot, and the port's digits at the first dash, which
the digits don't have.  Lowering leaves the characters of a label as they are.
-/
import Fern.Preview.Host
import Fern.Proofs.Preview.Port
import Fern.Proofs.Setup.Names

namespace Fern

open List

variable {l p r tail : List Char} {c : Char}

namespace Preview

variable {k : Casing} {h : List Char} {id : EnvID}

/-! ### The characters of a label -/

theorem checkEnvID_idChar (hid : checkEnvID id = true) : ∀ c ∈ id.toList, idChar c = true := by
  unfold checkEnvID at hid
  cases hlist : id.toList with
  | nil =>
    intro c hc
    cases hc
  | cons c rest =>
    rw [hlist] at hid
    simp only [Bool.and_eq_true, Bool.or_eq_true, decide_eq_true_eq, all_eq_true] at hid
    obtain ⟨hfirst, hrest⟩ := hid
    intro x hx
    obtain rfl | hx := mem_cons.mp hx
    · simp [idChar, hfirst]
    · obtain hempty | ⟨⟨-, hall⟩, hlast⟩ := hrest
      · rw [List.isEmpty_iff.mp hempty] at hx
        cases hx
      · by_cases hend : some x = rest.getLast?
        · rw [← hend] at hlast
          simp only [Option.map_some, Option.getD_some] at hlast
          simp [idChar, hlast]
        · have hor := hall x (mem_dropLast_of_mem_of_ne_getLast? hx hend)
          unfold idChar
          rw [Bool.or_eq_true]
          exact hor

theorem checkEnvID_ne_nil (hid : checkEnvID id = true) : id.toList ≠ [] := by
  intro hnil
  unfold checkEnvID at hid
  rw [hnil] at hid
  cases hid

theorem isLower_eq (c : Char) :
    c.isLower = (decide (97 ≤ c.toNat) && decide (c.toNat ≤ 122)) := rfl

theorem idChar_plain (hc : idChar c = true) :
    c.toNat < 128 ∧ c.toLower = c ∧ isMark c = false ∧ c ≠ '.' ∧ c ≠ '+' := by
  have hnat : c.toNat < 128 := by
    unfold idChar labelChar at hc
    rw [isLower_eq] at hc
    simp only [Bool.or_eq_true, beq_iff_eq, Char.isDigit, Bool.and_eq_true,
      decide_eq_true_eq, ge_iff_le, UInt32.le_iff_toNat_le] at hc
    obtain rfl | ⟨-, hc⟩ | ⟨-, hc⟩ := hc
    · decide
    · omega
    · exact Nat.lt_of_le_of_lt hc (by decide)
  refine ⟨hnat, ?_⟩
  have hall : ∀ n < 128, idChar (Char.ofNat n) = true →
      (Char.ofNat n).toLower = Char.ofNat n ∧ isMark (Char.ofNat n) = false ∧
        Char.ofNat n ≠ '.' ∧ Char.ofNat n ≠ '+' := by
    decide +kernel
  rw [← Char.ofNat_toNat c] at hc ⊢
  exact hall c.toNat hnat hc

theorem idChar_of_isDigit (hc : c.isDigit = true) : idChar c = true := by
  simp [idChar, labelChar, hc]

theorem ne_dash_of_isDigit (hc : c.isDigit = true) : c ≠ '-' := by
  intro heq
  rw [heq] at hc
  cases hc

theorem Casing.toLower_label (hl : ∀ c ∈ l, idChar c = true) :
    k.toLower l = l := by
  unfold Casing.toLower
  rw [map_congr_left (g := fun c => c)]
  · exact map_id' l
  · intro c hc
    obtain ⟨hnat, hlower, -⟩ := idChar_plain (hl c hc)
    rw [k.ascii c hnat, hlower]

theorem Casing.toLower_append (l l' : List Char) :
    k.toLower (l ++ l') = k.toLower l ++ k.toLower l' := map_append

theorem Casing.lower_dot : k.lower '.' = '.' := k.ascii '.' (by decide)

theorem Casing.lower_mark : isMark (k.lower c) = true ↔ isMark c = true := by
  have hmark : ∀ d, isMark d = true → d.toNat < 128 ∧ d.isLower = false ∧ d.toLower = d := by
    intro d hd
    simp only [isMark, Bool.or_eq_true, beq_iff_eq] at hd
    obtain (rfl | rfl) | rfl := hd <;> decide
  constructor
  · intro hc
    obtain ⟨hnat, hlower, -⟩ := hmark _ hc
    rw [k.plain c hnat hlower] at hc
    exact hc
  · intro hc
    obtain ⟨hnat, -, hself⟩ := hmark c hc
    rw [k.ascii c hnat, hself]
    exact hc

theorem HostName.of_same {l' : List Char} (hl : HostName l') (hsame : k.Same l l') :
    HostName l := by
  intro c hc
  by_contra hmark
  rw [Bool.not_eq_false] at hmark
  have hmem : k.lower c ∈ k.toLower l' := by
    rw [← hsame]
    exact mem_map_of_mem hc
  obtain ⟨d, hd, heq⟩ := mem_map.mp hmem
  have hdmark : isMark d = true := by
    rw [← Casing.lower_mark (k := k), heq, Casing.lower_mark]
    exact hmark
  rw [hl d hd] at hdmark
  cases hdmark

/-! ### A host and its port -/

theorem HostName.notMem (hl : HostName l) (hc : isMark c = true) :
    c ∉ l := by
  intro hmem
  rw [hl c hmem] at hc
  cases hc

theorem splitHostPort_host (hr : HostName r) : splitHostPort r = none := by
  unfold splitHostPort
  rw [if_pos (hr.notMem (by decide))]

theorem splitHostPort_port (hr : HostName r) (hp : HostName p) :
    splitHostPort (r ++ ':' :: p) = some (r, p) := by
  have hport : afterLast ':' (r ++ ':' :: p) = p := by
    unfold afterLast
    rw [reverse_append, reverse_cons, append_assoc, singleton_append]
    have hmem : ':' ∉ p.reverse := by
      rw [mem_reverse]
      exact hp.notMem (by decide)
    rw [takeWhile_mark hmem, reverse_reverse]
  have hbefore : (r ++ ':' :: p).take ((r ++ ':' :: p).length - p.length - 1) = r := by
    have hlen : (r ++ ':' :: p).length - p.length - 1 = r.length := by
      rw [length_append, length_cons]
      omega
    rw [hlen, take_left]
  have hmem : ¬ ':' ∉ r ++ ':' :: p := by simp
  have hopen : ∀ c, isMark c = true → c ≠ ':' → c ∉ r ++ ':' :: p := by
    intro c hc hne hin
    obtain hin | hin := mem_append.mp hin
    · exact hr.notMem hc hin
    · obtain rfl | hin := mem_cons.mp hin
      · exact hne rfl
      · exact hp.notMem hc hin
  have hhead : (r ++ ':' :: p).head? ≠ some '[' := by
    intro heq
    exact hopen '[' (by decide) (by decide) (mem_of_mem_head? heq)
  have hbrackets : ¬ ('[' ∈ r ++ ':' :: p ∨ ']' ∈ r ++ ':' :: p) := by
    rw [not_or]
    exact ⟨hopen _ (by decide) (by decide), hopen _ (by decide) (by decide)⟩
  unfold splitHostPort
  dsimp only
  rw [hport, hbefore, if_neg hmem, if_neg hhead, if_neg (hr.notMem (by decide)), if_neg hbrackets]

theorem hostOf_append (hr : HostName r) (ht : PortText tail) :
    hostOf k (r ++ tail) = k.toLower r := by
  unfold hostOf
  obtain rfl | ⟨p, rfl, hp⟩ := ht
  · rw [append_nil, splitHostPort_host hr]
    rfl
  · rw [splitHostPort_port hr hp]
    rfl

/-! ### Numbers -/

theorem number?_fold (l : List Char) (n : Nat) :
    l.foldl (fun n? c => n?.bind fun n =>
      if c.isDigit then some (10 * n + (c.toNat - 48)) else none)
        (some n) =
      if l.all Char.isDigit then some (Nat.ofDigitChars 10 l n) else none := by
  induction l generalizing n with
  | nil => simp [Nat.ofDigitChars]
  | cons c l ih =>
    rw [foldl_cons, Option.bind_some, all_cons]
    by_cases hc : c.isDigit = true
    · rw [if_pos hc, ih, hc, Bool.true_and]
      rfl
    · rw [if_neg hc]
      have hnone : l.foldl (fun n? c => n?.bind fun n =>
          if c.isDigit then some (10 * n + (c.toNat - 48)) else none) none = none := by
        clear ih
        induction l with
        | nil => rfl
        | cons d l ih => exact ih
      rw [hnone, if_neg]
      intro hall
      exact hc (Bool.and_eq_true_iff.mp hall).1

theorem number?_eq_some {n : Nat} :
    number? l = some n ↔ Digits l ∧ Nat.ofDigitChars 10 l 0 = n := by
  cases l with
  | nil => simp [number?, Digits]
  | cons c l =>
    rw [number?, number?_fold]
    unfold Digits
    by_cases hall : ∀ x ∈ c :: l, x.isDigit = true
    · rw [if_pos (all_eq_true.mpr hall), Option.some.injEq]
      have hdigits : c :: l ≠ [] ∧ ∀ x ∈ c :: l, x.isDigit = true := ⟨cons_ne_nil c l, hall⟩
      exact (and_iff_right hdigits).symm
    · rw [if_neg (fun hdigits => hall (all_eq_true.mp hdigits))]
      constructor
      · intro heq
        cases heq
      · intro hboth
        exact absurd hboth.1.2 hall

theorem atoi_eq_some (hl : '-' ∉ l) (hplus : l.head? ≠ some '+') {n : Int} :
    atoi l = some n ↔
      ∃ m : Nat, n = m ∧ Digits l ∧ Nat.ofDigitChars 10 l 0 = m ∧ m ≤ 9223372036854775807 := by
  have heq : atoi l = ((number? l).map Int.ofNat).filter fun n =>
      -9223372036854775808 ≤ n && n ≤ 9223372036854775807 := by
    unfold atoi
    split
    · exact absurd mem_cons_self hl
    · exact absurd rfl hplus
    · rfl
  rw [heq, Option.filter_eq_some_iff, Option.map_eq_some_iff]
  simp only [Bool.and_eq_true, decide_eq_true_eq, number?_eq_some]
  constructor
  · intro hboth
    obtain ⟨⟨m, ⟨hdigits, hm⟩, rfl⟩, -, hle⟩ := hboth
    rw [Int.ofNat_eq_natCast] at hle
    exact ⟨m, rfl, hdigits, hm, by omega⟩
  · intro hex
    obtain ⟨m, rfl, hdigits, hm, hle⟩ := hex
    exact ⟨⟨m, ⟨hdigits, hm⟩, rfl⟩, by omega, by omega⟩

theorem digits_toDigits (n : Nat) : Digits (Nat.toDigits 10 n) := by
  refine ⟨Nat.toDigits_ne_nil, ?_⟩
  intro c hc
  exact Nat.isDigit_of_mem_toDigits (by omega) (by omega) hc

theorem Digits.notMem_dash (hp : Digits p) : '-' ∉ p := by
  intro hmem
  exact ne_dash_of_isDigit (hp.2 _ hmem) rfl

theorem Digits.head?_ne_plus (hp : Digits p) : p.head? ≠ some '+' := by
  intro heq
  have hdigit := hp.2 '+' (mem_of_mem_head? heq)
  cases hdigit

/-! ### The label -/

theorem portOf_numbered {rest : List Char} (hp : Digits p) (hrest : rest ≠ [])
    (hle : Nat.ofDigitChars 10 p 0 ≤ 9223372036854775807) :
    portOf (p ++ '-' :: rest) =
      if (Nat.ofDigitChars 10 p 0 : Int) ≤ 0 ∨ 65535 < (Nat.ofDigitChars 10 p 0 : Int) ∨
          (Nat.ofDigitChars 10 p 0 : Int) = execPort then .error ()
      else .ok ((Nat.ofDigitChars 10 p 0 : Int), rest) := by
  have hcut : cutText ['-'] (p ++ '-' :: rest) = some (p, rest) := by
    have happend : cutText ['-'] (p ++ (['-'] ++ rest)) = some (p, rest) :=
      cutText_append hp.notMem_dash
    exact happend
  have hatoi : atoi p = some (Nat.ofDigitChars 10 p 0 : Int) :=
    (atoi_eq_some hp.notMem_dash hp.head?_ne_plus).mpr ⟨_, rfl, hp, rfl, hle⟩
  unfold portOf
  rw [hcut]
  dsimp only
  rw [if_neg hrest, hatoi]
  dsimp only
  rw [if_neg hp.head?_ne_plus]

theorem cutText_dash {before after : List Char} (hcut : cutText ['-'] l = some (before, after)) :
    '-' ∉ before := by
  induction l generalizing before after with
  | nil => cases hcut
  | cons c l ih =>
    rw [cutText] at hcut
    by_cases hc : c = '-'
    · subst hc
      rw [if_pos (by simp [List.isPrefixOf])] at hcut
      obtain ⟨rfl, -⟩ := Prod.mk.inj (Option.some.inj hcut)
      exact not_mem_nil
    · rw [if_neg (by simp [List.isPrefixOf, Ne.symm hc])] at hcut
      obtain ⟨⟨before', after'⟩, hrest, heq⟩ := Option.map_eq_some_iff.mp hcut
      obtain ⟨rfl, rfl⟩ := Prod.mk.inj heq
      rw [mem_cons, not_or]
      exact ⟨Ne.symm hc, ih hrest⟩

/-- **What a label names**: a port of its own with what is behind the dash, or no port with all
of it; the second just if it doesn't start with a number and a dash. -/
theorem portOf_cases (label : List Char) :
    portOf label = .ok (0, label) ∨
      ∃ p rest, Digits p ∧ rest ≠ [] ∧ label = p ++ '-' :: rest ∧
        (portOf label = .error () ∨
          portOf label = .ok ((Nat.ofDigitChars 10 p 0 : Int), rest)) := by
  cases hcut : cutText ['-'] label with
  | none =>
    left
    unfold portOf
    rw [hcut]
  | some cut =>
    obtain ⟨p, rest⟩ := cut
    have hlabel : label = p ++ '-' :: rest := by
      rw [cutText_eq_some hcut, append_assoc, singleton_append]
    by_cases hrest : rest = []
    · left
      unfold portOf
      rw [hcut]
      dsimp only
      rw [if_pos hrest]
    by_cases hplus : p.head? = some '+'
    · left
      unfold portOf
      rw [hcut]
      dsimp only
      rw [if_neg hrest]
      cases hatoi : atoi p with
      | none => rfl
      | some n =>
        dsimp only
        rw [if_pos hplus]
    cases hatoi : atoi p with
    | none =>
      left
      unfold portOf
      rw [hcut]
      dsimp only
      rw [if_neg hrest, hatoi]
    | some n =>
      right
      obtain ⟨m, rfl, hp, rfl, hle⟩ := (atoi_eq_some (cutText_dash hcut) hplus).mp hatoi
      refine ⟨p, rest, hp, hrest, hlabel, ?_⟩
      rw [hlabel, portOf_numbered hp hrest hle]
      split
      · exact .inl rfl
      · exact .inr rfl

/-! ### The route -/

theorem cutSuffix_eq_some {ending start : List Char} :
    cutSuffix ending l = some start ↔ l = start ++ ending := by
  unfold cutSuffix
  constructor
  · intro hcut
    split at hcut
    case isTrue hsuffix =>
      obtain ⟨t, rfl⟩ := isSuffixOf_iff_suffix.mp hsuffix
      rw [length_append, Nat.add_sub_cancel, take_left] at hcut
      rw [Option.some.inj hcut]
    case isFalse => cases hcut
  · intro heq
    have hsuffix : ending.isSuffixOf l = true := by
      rw [isSuffixOf_iff_suffix, heq]
      exact suffix_append _ _
    rw [if_pos hsuffix, heq, length_append, Nat.add_sub_cancel, take_left]

variable {d : Setup.Decoders} {ws : EnvID → Option Setup.Checkout}
  {wake : EnvID → Option (List Char)}

theorem route_eq_some {hostport : List Char} {port : Int} :
    route (new k h d ws wake) hostport = some (id, port) ↔
      ∃ label, hostOf k hostport = label ++ '.' :: k.toLower h ∧ label ≠ [] ∧ '.' ∉ label ∧
        portOf label = .ok (port, id.toList) ∧ checkEnvID id = true := by
  constructor
  · intro hroute
    unfold route at hroute
    dsimp only at hroute
    split at hroute
    case h_1 => cases hroute
    case h_2 label hcut =>
      split at hroute
      case isTrue => cases hroute
      case isFalse hdot =>
        obtain ⟨hne, hnot⟩ := not_or.mp hdot
        split at hroute
        case h_1 => cases hroute
        case h_2 hport =>
          split at hroute
          case isTrue hcheck =>
            obtain ⟨rfl, rfl⟩ := Prod.mk.inj (Option.some.inj hroute)
            refine ⟨label, cutSuffix_eq_some.mp hcut, hne, hnot, ?_, hcheck⟩
            rw [String.toList_ofList]
            exact hport
          case isFalse => cases hroute
  · intro hex
    obtain ⟨label, hhost, hne, hnot, hport, hid⟩ := hex
    have hcut : cutSuffix ('.' :: (new k h d ws wake).host)
        ((new k h d ws wake).lower (((new k h d ws wake).splitHost hostport).getD hostport)) =
          some label := cutSuffix_eq_some.mpr hhost
    unfold route
    dsimp only
    rw [hcut]
    dsimp only
    rw [if_neg (not_or.mpr ⟨hne, hnot⟩), hport]
    dsimp only
    rw [String.ofList_toList, if_pos hid]

/-- A host that is a label and the front door's name, in any case and with any port behind it,
is read as that label. -/
theorem hostOf_label {label : List Char} (hh : HostName h) (hlabel : ∀ c ∈ label, idChar c = true)
    (hsame : k.Same r (label ++ '.' :: h)) (ht : PortText tail) :
    hostOf k (r ++ tail) = label ++ '.' :: k.toLower h := by
  have hname : HostName (label ++ '.' :: h) := by
    intro c hc
    obtain hc | hc := mem_append.mp hc
    · exact (idChar_plain (hlabel c hc)).2.2.1
    · obtain rfl | hc := mem_cons.mp hc
      · decide
      · exact hh c hc
  rw [hostOf_append (hname.of_same hsame) ht, hsame, Casing.toLower_append,
    Casing.toLower_label hlabel]
  unfold Casing.toLower
  rw [map_cons, Casing.lower_dot]

theorem notMem_dot {label : List Char} (hlabel : ∀ c ∈ label, idChar c = true) :
    '.' ∉ label := by
  intro hmem
  exact (idChar_plain (hlabel '.' hmem)).2.2.2.1 rfl

theorem route_port {port : Nat} (hh : HostName h) (hid : checkEnvID id = true) (hpos : 1 ≤ port)
    (hle : port ≤ 65535) (hexec : (port : Int) ≠ execPort)
    (hsame : k.Same r (Nat.toDigits 10 port ++ '-' :: id.toList ++ '.' :: h)) (ht : PortText tail) :
    route (new k h d ws wake) (r ++ tail) = some (id, (port : Int)) := by
  have hdigits := digits_toDigits port
  have hlabel : ∀ c ∈ Nat.toDigits 10 port ++ '-' :: id.toList, idChar c = true := by
    intro c hc
    obtain hc | hc := mem_append.mp hc
    · exact idChar_of_isDigit (hdigits.2 c hc)
    · obtain rfl | hc := mem_cons.mp hc
      · decide
      · exact checkEnvID_idChar hid c hc
  refine route_eq_some.mpr ⟨Nat.toDigits 10 port ++ '-' :: id.toList,
    hostOf_label hh hlabel hsame ht, by simp, notMem_dot hlabel, ?_, hid⟩
  have hvalue : Nat.ofDigitChars 10 (Nat.toDigits 10 port) 0 = port :=
    Nat.ofDigitChars_toDigits (by omega) (by omega)
  have hbounds : ¬ ((port : Int) ≤ 0 ∨ 65535 < (port : Int) ∨ (port : Int) = execPort) := by
    rw [not_or, not_or]
    exact ⟨by omega, by omega, hexec⟩
  rw [portOf_numbered hdigits (checkEnvID_ne_nil hid) (by rw [hvalue]; omega), hvalue,
    if_neg hbounds]

theorem route_default (hh : HostName h) (hid : checkEnvID id = true) (hnumber : ¬ Numbered id)
    (hsame : k.Same r (id.toList ++ '.' :: h)) (ht : PortText tail) :
    route (new k h d ws wake) (r ++ tail) = some (id, 0) := by
  have hlabel := checkEnvID_idChar hid
  refine route_eq_some.mpr ⟨id.toList, hostOf_label hh hlabel hsame ht, checkEnvID_ne_nil hid,
    notMem_dot hlabel, ?_, hid⟩
  obtain hok | ⟨p, rest, hp, -, hlist, -⟩ := portOf_cases id.toList
  · exact hok
  · exact absurd ⟨p, rest, hp, hlist⟩ hnumber

theorem route_label {hostport : List Char} {port : Int}
    (hroute : route (new k h d ws wake) hostport = some (id, port)) :
    checkEnvID id = true ∧ ∃ label, '.' ∉ label ∧
      hostOf k hostport = label ++ '.' :: k.toLower h ∧
      (label = id.toList ∧ port = 0 ∨
        ∃ p, Digits p ∧ label = p ++ '-' :: id.toList ∧ port = Nat.ofDigitChars 10 p 0) := by
  obtain ⟨label, hhost, -, hdot, hport, hid⟩ := route_eq_some.mp hroute
  refine ⟨hid, label, hdot, hhost, ?_⟩
  obtain hok | ⟨p, rest, hp, -, hlabel, herr | hok⟩ := portOf_cases label
  · rw [hok] at hport
    obtain ⟨rfl, hlist⟩ := Prod.mk.inj (Except.ok.inj hport)
    exact .inl ⟨hlist, rfl⟩
  · rw [herr] at hport
    cases hport
  · rw [hok] at hport
    obtain ⟨rfl, rfl⟩ := Prod.mk.inj (Except.ok.inj hport)
    exact .inr ⟨p, hp, hlabel, rfl⟩

/-- **A preview's host names one environment**: a port, a dash and an ID under the front door's
name are that port of that environment, an ID alone its default preview unless it starts like a
port, in any case and whatever port the request has; and a host that is routed at all is a single
label under that name, of a valid ID or of digits, a dash and a valid ID. -/
theorem hosts_unambiguous (k : Casing) (h : List Char) (d : Setup.Decoders)
    (ws : EnvID → Option Setup.Checkout) (wake : EnvID → Option (List Char)) :
    (HostName h → ∀ id, checkEnvID id = true → ∀ r tail, PortText tail →
      (∀ port : Nat, 1 ≤ port → port ≤ 65535 → (port : Int) ≠ execPort →
        k.Same r (Nat.toDigits 10 port ++ '-' :: id.toList ++ '.' :: h) →
          route (new k h d ws wake) (r ++ tail) = some (id, (port : Int))) ∧
      (¬ Numbered id → k.Same r (id.toList ++ '.' :: h) →
        route (new k h d ws wake) (r ++ tail) = some (id, 0))) ∧
    ∀ hostport id port, route (new k h d ws wake) hostport = some (id, port) →
      checkEnvID id = true ∧ ∃ label, '.' ∉ label ∧
        hostOf k hostport = label ++ '.' :: k.toLower h ∧
        (label = id.toList ∧ port = 0 ∨
          ∃ p, Digits p ∧ label = p ++ '-' :: id.toList ∧ port = Nat.ofDigitChars 10 p 0) := by
  refine ⟨?_, ?_⟩
  · intro hh id hid r tail ht
    refine ⟨?_, ?_⟩
    · intro port hpos hle hexec hsame
      exact route_port hh hid hpos hle hexec hsame ht
    · intro hnumber hsame
      exact route_default hh hid hnumber hsame ht
  · intro hostport id port hroute
    exact route_label hroute

/-- Lowering that knows ASCII alone. -/
def asciiCasing : Casing where
  lower := Char.toLower
  ascii _ _ := rfl
  plain c _ hlower := by
    unfold Char.toLower at hlower ⊢
    split
    case isTrue hupper =>
      -- a capital is lowered to a letter
      rw [dif_pos hupper, isLower_eq] at hlower
      simp only [Bool.and_eq_false_iff, decide_eq_false_iff_not, ge_iff_le, Char.toNat,
        UInt32.le_iff_toNat_le, UInt32.toNat_add] at hlower hupper
      simp only [UInt32.toNat_sub] at hlower
      have hA : 'A'.val.toNat = 65 := rfl
      have hZ : 'Z'.val.toNat = 90 := rfl
      have ha : 'a'.val.toNat = 97 := rfl
      omega
    case isFalse => rfl

/-- An ID that starts like a port, at another port, and one that doesn't. -/
theorem hosts_unambiguous_localhost :
    route (new asciiCasing "LocalHost".toList servesExecPort.decoders servesExecPort.workspace
        servesExecPort.wake) "3000-8080-Demo.LOCALHOST:8443".toList = some ("8080-demo", 3000) ∧
      route (new asciiCasing "LocalHost".toList servesExecPort.decoders servesExecPort.workspace
        servesExecPort.wake) "Demo.LOCALHOST".toList = some ("demo", 0) ∧
      checkEnvID "demo" = true := by
  have hboth := hosts_unambiguous asciiCasing "LocalHost".toList servesExecPort.decoders
    servesExecPort.workspace servesExecPort.wake
  have hname : HostName "LocalHost".toList := by decide
  have hport : PortText ":8443".toList := .inr ⟨"8443".toList, rfl, by decide⟩
  have hfree : ¬ Numbered "demo" := by
    intro hnumber
    obtain ⟨p, rest, -, hlist⟩ := hnumber
    have hdash : '-' ∈ "demo".toList := by
      rw [hlist]
      exact mem_append_right _ mem_cons_self
    exact absurd hdash (by decide)
  have hdefault : route (new asciiCasing "LocalHost".toList servesExecPort.decoders
      servesExecPort.workspace servesExecPort.wake) ("Demo.LOCALHOST".toList ++ []) =
        some ("demo", 0) :=
    ((hboth.1 hname "demo" (by decide) "Demo.LOCALHOST".toList [] (.inl rfl)).2 hfree (by decide))
  refine ⟨?_, hdefault, (hboth.2 _ _ _ hdefault).1⟩
  exact (hboth.1 hname "8080-demo" (by decide) "3000-8080-Demo.LOCALHOST".toList _ hport).1 3000
    (by decide) (by decide) (by decide) (by decide)

end Preview

end Fern
