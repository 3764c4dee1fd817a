/-
The names of environments, boxes and snapshots.

Everything the store keeps is found by name: an environment's ID is a DNS label, a
snapshot's a file name, and a workspace at a caller's path is `<repo>/<name>` below
`worktrees/`.  The three patterns are the source's regular expressions, read off the
list of characters.
-/
import Mathlib.Data.List.Basic

namespace Fern

open List

abbrev EnvID := String
abbrev SnapID := String

/-- A character of an environment's ID other than the dash. -/
def labelChar (c : Char) : Bool := c.isLower || c.isDigit

/-- `envIDPattern`: `^[a-z0-9]([-a-z0-9]{0,61}[a-z0-9])?$`. -/
def checkEnvID (id : EnvID) : Bool :=
  match id.toList with
  | [] => false
  | c :: rest =>
    labelChar c &&
      (rest.isEmpty || (rest.length ≤ 62 && rest.dropLast.all (fun d => d == '-' || labelChar d) &&
        (rest.getLast?.map labelChar).getD false))

/-- `[A-Za-z0-9._-]`, what a file name goes on with. -/
def nameChar (c : Char) : Bool := c.isAlphanum || c == '.' || c == '_' || c == '-'

/-- `snapIDPattern`: `^[A-Za-z0-9][A-Za-z0-9._-]{0,127}$`. -/
def checkSnapID (id : SnapID) : Bool :=
  match id.toList with
  | [] => false
  | c :: rest => c.isAlphanum && rest.length ≤ 127 && rest.all nameChar

/-- `pathPartPattern`: `^[A-Za-z0-9_][A-Za-z0-9._-]{0,127}$`. -/
def pathPart (part : String) : Bool :=
  match part.toList with
  | [] => false
  | c :: rest => (c.isAlphanum || c == '_') && rest.length ≤ 127 && rest.all nameChar

/-! ### Snapshots a restore makes

A restore names the snapshot of the workspace it replaces for the time, to the
nanosecond.  The index finds those snapshots with `LIKE`, which ignores case.
-/

/-- Nanoseconds since 1970, as the daemon's clock gives them. -/
abbrev Time := Nat

def second : Nat := 1000000000

/-- `preRestoreKeep`, 24 hours. -/
def preRestoreKeep : Nat := 24 * 60 * 60 * second

/-- A time to the second, as the index keeps it. -/
def unix (t : Int) : Int := t / (second : Int)

/-- The last `w` decimal digits of `n`, with leading zeros. -/
def digits : Nat → Nat → List Char
  | 0, _ => []
  | w + 1, n => digits w (n / 10) ++ [Char.ofNat (48 + n % 10)]

/-- The year, month and day that `days` after 1970-01-01 falls on. -/
def civil (days : Nat) : Nat × Nat × Nat :=
  let z := days + 719468
  let era := z / 146097
  let doe := z % 146097
  let yoe := (doe - doe / 1460 + doe / 36524 - doe / 146096) / 365
  let doy := doe - (365 * yoe + yoe / 4 - yoe / 100)
  let mp := (5 * doy + 2) / 153
  let day := doy - (153 * mp + 2) / 5 + 1
  let month := if mp < 10 then mp + 3 else mp - 9
  let year := yoe + era * 400
  (if month ≤ 2 then year + 1 else year, month, day)

/-- `preRestoreTime`: a time as `20060102-150405.000000000`, in UTC. -/
def preRestoreTime (t : Time) : List Char :=
  let secs := t / second
  let (year, month, day) := civil (secs / 86400)
  let rest := secs % 86400
  digits 4 year ++ digits 2 month ++ digits 2 day ++ ['-'] ++
    digits 2 (rest / 3600) ++ digits 2 (rest / 60 % 60) ++ digits 2 (rest % 60) ++ ['.'] ++
    digits 9 (t % second)

def preRestorePrefix : List Char := ['p', 'r', 'e', '-', 'r', 'e', 's', 't', 'o', 'r', 'e', '-']

/-- What a restore at `t` calls the snapshot of the workspace it replaces. -/
def preRestoreID (t : Time) : SnapID := String.ofList (preRestorePrefix ++ preRestoreTime t)

/-- `id LIKE 'pre-restore-%'`, which in SQLite ignores the case of ASCII letters. -/
def isPreRestore (id : SnapID) : Bool :=
  (id.toList.take preRestorePrefix.length).map Char.toLower == preRestorePrefix

theorem digits_length (w n : Nat) : (digits w n).length = w := by
  induction w generalizing n with
  | zero => rfl
  | succ w ih => simp [digits, ih]

theorem isDigit_digit (n : Nat) : (Char.ofNat (48 + n % 10)).isDigit = true := by
  have h : n % 10 < 10 := Nat.mod_lt _ (by omega)
  generalize n % 10 = d at h
  revert d
  decide

theorem digits_isDigit (w n : Nat) : ∀ c ∈ digits w n, c.isDigit = true := by
  induction w generalizing n with
  | zero => intro c hc; simp [digits] at hc
  | succ w ih =>
    intro c hc
    rw [digits, mem_append, mem_singleton] at hc
    rcases hc with hc | rfl
    · exact ih _ c hc
    · exact isDigit_digit n

theorem digits_nameChar {w n : Nat} {c : Char} (hc : c ∈ digits w n) : nameChar c = true := by
  simp [nameChar, Char.isAlphanum, digits_isDigit w n c hc]

theorem preRestoreTime_length (t : Time) : (preRestoreTime t).length = 25 := by
  simp [preRestoreTime, digits_length]

theorem preRestoreTime_nameChar (t : Time) : ∀ c ∈ preRestoreTime t, nameChar c = true := by
  intro c hc
  simp only [preRestoreTime, mem_append, mem_singleton] at hc
  rcases hc with (((((((h | h) | h) | rfl) | h) | h) | h) | rfl) | h
  all_goals first | exact digits_nameChar h | decide

private theorem checkSnapID_prefixed {stamp : List Char} (hlen : stamp.length = 25)
    (hchar : ∀ c ∈ stamp, nameChar c = true) :
    checkSnapID (String.ofList (preRestorePrefix ++ stamp)) = true := by
  unfold checkSnapID
  rw [String.toList_ofList]
  simp only [preRestorePrefix, cons_append, Bool.and_eq_true, decide_eq_true_eq,
    all_eq_true, length_cons, nil_append]
  refine ⟨⟨by decide, by omega⟩, ?_⟩
  intro c hc
  simp only [mem_cons] at hc
  rcases hc with rfl | rfl | rfl | rfl | rfl | rfl | rfl | rfl | rfl | rfl | rfl | h
  all_goals first | exact hchar c h | decide

private theorem isPreRestore_prefixed (stamp : List Char) :
    isPreRestore (String.ofList (preRestorePrefix ++ stamp)) = true := by
  unfold isPreRestore
  rw [String.toList_ofList, take_left' rfl]
  decide

/-- A restore's snapshot has a name the store takes. -/
theorem checkSnapID_preRestoreID (t : Time) : checkSnapID (preRestoreID t) = true :=
  checkSnapID_prefixed (preRestoreTime_length t) (preRestoreTime_nameChar t)

/-- A restore's snapshot is one the index takes for a restore's. -/
theorem isPreRestore_preRestoreID (t : Time) : isPreRestore (preRestoreID t) = true :=
  isPreRestore_prefixed _

example : preRestoreID 1136214245123456789 = "pre-restore-20060102-150405.123456789" := by decide

end Fern
