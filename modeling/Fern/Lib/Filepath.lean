/-
Paths as texts.

`clean`, `join`, `rel` and `dir` are Go's `path/filepath` for Unix: they work on the text alone and
ask no file system.  A path is its parts, from the root or not; a cleaned one has no part that is
empty or a dot, and one from the root none that is two dots either.  Such a path and its text say
the same (`parse_text`), so what holds of texts is proved of the parts: one path is `within` another
just if its parts go on where the other's end.
-/
import Mathlib.Data.List.Induction
import Mathlib.Data.List.Infix

namespace Filepath

open List

abbrev Text := List Char

/-- The part that leads to the folder above. -/
def dots : Text := ['.', '.']

/-- A path by its parts. -/
structure Path where
  rooted : Bool
  parts : List Text
  deriving DecidableEq

/-- `IsAbs`. -/
def isAbs (t : Text) : Bool := t.head? == some '/'

/-- The next part of a path; two dots take back the part before them. -/
def push (rooted : Bool) (done : List Text) (part : Text) : List Text :=
  if part = [] ∨ part = ['.'] then done
  else if part = dots then
    match done.getLast? with
    | none => if rooted then [] else [dots]
    | some last => if last = dots then done ++ [dots] else done.dropLast
  else done ++ [part]

def parse (t : Text) : Path := ⟨isAbs t, (t.splitOn '/').foldl (push (isAbs t)) []⟩

def Path.text (p : Path) : Text :=
  if p.rooted then '/' :: ['/'].intercalate p.parts
  else if p.parts = [] then ['.']
  else ['/'].intercalate p.parts

/-- `Clean`. -/
def clean (t : Text) : Text := (parse t).text

/-- `Join`, of two elements. -/
def join (a b : Text) : Text :=
  if a ≠ [] then clean (a ++ '/' :: b) else if b ≠ [] then clean b else []

/-- `Dir`. -/
def dir (t : Text) : Text := clean (t.reverse.dropWhile (· ≠ '/')).reverse

/-- The way from one list of parts to another: up from what the first has left where they part,
then down. -/
def relParts : List Text → List Text → Option (List Text)
  | [], targ => some targ
  | base, [] => some (base.map fun _ => dots)
  | b :: base, t :: targ =>
    if b = t then relParts base targ
    else if b = dots then none
    else some ((b :: base).map (fun _ => dots) ++ t :: targ)

/-- `Rel`; none where it is an error. -/
def rel (base targ : Text) : Option Text :=
  if clean targ = clean base then some ['.']
  else if isAbs (clean base) ≠ isAbs (clean targ) then none
  else
    -- a target that is the current folder is compared as the text it is
    let parts := if clean targ = ['.'] then [['.']] else (parse targ).parts
    (relParts (parse base).parts parts).map ['/'].intercalate

example : clean "/a//b/./../c/".toList = "/a/c".toList := by decide

example : rel "/a/b".toList "/a/c/d".toList = some "../c/d".toList := by decide

/-! ### Paths from the root -/

/-- A part that is the name of something in a folder. -/
structure IsName (part : Text) : Prop where
  ne_nil : part ≠ []
  ne_dot : part ≠ ['.']
  ne_dots : part ≠ dots
  slash : '/' ∉ part

/-- A cleaned path from the root. -/
structure Path.Absolute (p : Path) : Prop where
  rooted : p.rooted = true
  names : ∀ part ∈ p.parts, IsName part

theorem Path.Absolute.eta {p : Path} (h : p.Absolute) : (⟨true, p.parts⟩ : Path) = p := by
  rw [← h.rooted]

theorem push_name (rooted : Bool) {done : List Text} {part : Text} (h : IsName part) :
    push rooted done part = done ++ [part] := by
  unfold push
  rw [if_neg (not_or.mpr ⟨h.ne_nil, h.ne_dot⟩), if_neg h.ne_dots]

theorem foldl_push_names (rooted : Bool) {parts : List Text} (h : ∀ part ∈ parts, IsName part)
    (done : List Text) : parts.foldl (push rooted) done = done ++ parts := by
  induction parts generalizing done with
  | nil => exact (append_nil done).symm
  | cons part parts ih =>
    rw [foldl_cons, push_name rooted (h part mem_cons_self),
      ih (fun q hq => h q (mem_cons_of_mem _ hq)), append_assoc, singleton_append]

/-- Whatever comes next, names stay names. -/
theorem push_names {done : List Text} {part : Text} (h : ∀ q ∈ done, IsName q)
    (hslash : '/' ∉ part) : ∀ q ∈ push true done part, IsName q := by
  unfold push
  split
  case isTrue => exact h
  case isFalse hdot =>
    obtain ⟨hnil, hdot⟩ := not_or.mp hdot
    split
    case isTrue =>
      split
      case h_1 =>
        intro q hq
        cases hq
      case h_2 last hlast =>
        rw [if_neg (h last (mem_of_getLast? hlast)).ne_dots]
        intro q hq
        exact h q (mem_of_mem_dropLast hq)
    case isFalse hdots =>
      intro q hq
      obtain hq | hq := mem_append.mp hq
      · exact h q hq
      · rw [mem_singleton.mp hq]
        exact ⟨hnil, hdot, hdots, hslash⟩

theorem foldl_push_isName {parts : List Text} (hslash : ∀ part ∈ parts, '/' ∉ part)
    {done : List Text} (h : ∀ q ∈ done, IsName q) :
    ∀ q ∈ parts.foldl (push true) done, IsName q := by
  induction parts generalizing done with
  | nil => exact h
  | cons part parts ih =>
    rw [foldl_cons]
    refine ih ?_ (push_names h (hslash part mem_cons_self))
    intro q hq
    exact hslash q (mem_cons_of_mem _ hq)

/-- No part of a text has a slash in it. -/
theorem slash_notMem_splitOn (t : Text) : ∀ part ∈ t.splitOn '/', '/' ∉ part := by
  induction t with
  | nil =>
    intro part hpart
    rw [splitOn_nil, mem_singleton] at hpart
    rw [hpart]
    exact not_mem_nil
  | cons c t ih =>
    rw [splitOn_cons_eq_if_modifyHead]
    by_cases hc : (c == '/') = true
    · rw [if_pos hc]
      intro part hpart
      obtain rfl | hpart := mem_cons.mp hpart
      · exact not_mem_nil
      · exact ih part hpart
    · rw [if_neg hc]
      cases hsplit : t.splitOn '/' with
      | nil => exact absurd hsplit (splitOn_ne_nil _ _)
      | cons first parts =>
        rw [hsplit] at ih
        intro part hpart
        rw [modifyHead_cons] at hpart
        obtain rfl | hpart := mem_cons.mp hpart
        · rw [mem_cons, not_or]
          refine ⟨?_, ih first mem_cons_self⟩
          intro heq
          exact hc (by rw [← heq]; rfl)
        · exact ih part (mem_cons_of_mem _ hpart)

theorem absolute_parse {t : Text} (h : isAbs t = true) : (parse t).Absolute := by
  refine ⟨h, ?_⟩
  unfold parse
  rw [h]
  refine foldl_push_isName (slash_notMem_splitOn t) ?_
  intro q hq
  cases hq

theorem Path.Absolute.text_eq {p : Path} (h : p.Absolute) :
    p.text = '/' :: ['/'].intercalate p.parts := by
  unfold Path.text
  rw [if_pos h.rooted]

theorem Path.Absolute.isAbs_text {p : Path} (h : p.Absolute) : isAbs p.text = true := by
  rw [h.text_eq]
  rfl

/-- The parts are what is between the slashes of the text. -/
theorem Path.Absolute.splitOn_text {p : Path} (h : p.Absolute) :
    p.text.splitOn '/' = [] :: (if p.parts = [] then [[]] else p.parts) := by
  rw [h.text_eq]
  have happend := splitOn_append_cons_self (a := '/') [] (['/'].intercalate p.parts)
  rw [nil_append, splitOn_nil] at happend
  rw [happend, singleton_append]
  by_cases hnil : p.parts = []
  · rw [if_pos hnil, hnil]
    rfl
  · rw [if_neg hnil]
    rw [splitOn_intercalate '/' (fun part hpart => (h.names part hpart).slash) hnil]

/-- **The text of a cleaned path says which it is.** -/
theorem parse_text {p : Path} (h : p.Absolute) : parse p.text = p := by
  unfold parse
  rw [h.isAbs_text, h.splitOn_text, foldl_cons]
  have hempty : push true [] [] = [] := rfl
  rw [hempty]
  obtain ⟨rooted, parts⟩ := p
  obtain rfl : rooted = true := h.rooted
  by_cases hnil : parts = []
  · subst hnil
    rfl
  · dsimp only
    rw [if_neg hnil, foldl_push_names true h.names, nil_append]

theorem text_injective {p q : Path} (hp : p.Absolute) (hq : q.Absolute) (h : p.text = q.text) :
    p = q := by
  rw [← parse_text hp, h, parse_text hq]

theorem absolute_clean {t : Text} (h : isAbs t = true) : isAbs (clean t) = true :=
  (absolute_parse h).isAbs_text

/-- No part is empty or has a slash in it, from the root or not. -/
theorem foldl_push_ne_nil {rooted : Bool} {parts : List Text} (hslash : ∀ part ∈ parts, '/' ∉ part)
    {done : List Text} (h : ∀ q ∈ done, q ≠ [] ∧ '/' ∉ q) :
    ∀ q ∈ parts.foldl (push rooted) done, q ≠ [] ∧ '/' ∉ q := by
  have hdots : dots ≠ [] ∧ '/' ∉ dots := by decide
  induction parts generalizing done with
  | nil => exact h
  | cons part parts ih =>
    rw [foldl_cons]
    refine ih (fun q hq => hslash q (mem_cons_of_mem _ hq)) ?_
    have hconcat : ∀ last, (last ≠ [] ∧ '/' ∉ last) →
        ∀ q ∈ done ++ [last], q ≠ [] ∧ '/' ∉ q := by
      intro last hlast q hq
      obtain hq | hq := mem_append.mp hq
      · exact h q hq
      · rw [mem_singleton.mp hq]
        exact hlast
    unfold push
    split
    case isTrue => exact h
    case isFalse hskip =>
      obtain ⟨hnil, -⟩ := not_or.mp hskip
      split
      case isTrue =>
        split
        case h_1 =>
          split
          · intro q hq
            cases hq
          · intro q hq
            rw [mem_singleton.mp hq]
            exact hdots
        case h_2 =>
          split
          · exact hconcat dots hdots
          · intro q hq
            exact h q (mem_of_mem_dropLast hq)
      case isFalse => exact hconcat part ⟨hnil, hslash part mem_cons_self⟩

/-- Cleaning makes no path lead from the root that didn't. -/
theorem isAbs_clean (t : Text) : isAbs (clean t) = isAbs t := by
  cases h : isAbs t with
  | true => exact absolute_clean h
  | false =>
    have hparts : ∀ q ∈ (parse t).parts, q ≠ [] ∧ '/' ∉ q := by
      refine foldl_push_ne_nil (slash_notMem_splitOn t) ?_
      intro q hq
      cases hq
    have hrooted : ¬ (parse t).rooted = true := by
      intro hrooted
      have habs : isAbs t = true := hrooted
      rw [h] at habs
      cases habs
    unfold clean Path.text
    rw [if_neg hrooted]
    cases hlist : (parse t).parts with
    | nil => rfl
    | cons part parts =>
      rw [if_neg (cons_ne_nil _ _)]
      obtain ⟨hnil, hslash⟩ := hparts part (by rw [hlist]; exact mem_cons_self)
      cases part with
      | nil => exact absurd rfl hnil
      | cons c part =>
        have hc : c ≠ '/' := fun heq => hslash (heq ▸ mem_cons_self)
        have hhead : (['/'].intercalate ((c :: part) :: parts)).head? = some c := by
          cases parts with
          | nil => rw [intercalate_singleton]; rfl
          | cons next parts => rw [intercalate_cons_cons]; rfl
        unfold isAbs
        rw [hhead]
        simpa using hc

theorem parse_clean {t : Text} (h : isAbs t = true) : parse (clean t) = parse t :=
  parse_text (absolute_parse h)

/-! ### Joining -/

theorem isAbs_append {a : Text} (h : isAbs a = true) (b : Text) : isAbs (a ++ b) = true := by
  cases a with
  | nil => cases h
  | cons c a => exact h

/-- The parts of a path that goes on from one from the root. -/
theorem parse_append {a : Text} (h : isAbs a = true) (b : Text) :
    parse (a ++ '/' :: b) = ⟨true, (b.splitOn '/').foldl (push true) (parse a).parts⟩ := by
  unfold parse
  rw [isAbs_append h, splitOn_append_cons_self, foldl_append, h]

theorem join_eq {a : Text} (h : isAbs a = true) (b : Text) : join a b = clean (a ++ '/' :: b) := by
  unfold join
  rw [if_pos]
  intro hnil
  rw [hnil] at h
  cases h

theorem isAbs_join {a : Text} (h : isAbs a = true) (b : Text) : isAbs (join a b) = true := by
  rw [join_eq h]
  exact absolute_clean (isAbs_append h _)

/-- A name joined to a path is its last part. -/
theorem parse_join {a name : Text} (h : isAbs a = true) (hname : IsName name) :
    parse (join a name) = ⟨true, (parse a).parts ++ [name]⟩ := by
  rw [join_eq h, parse_clean (isAbs_append h _), parse_append h,
    splitOn_eq_singleton hname.slash, foldl_cons, push_name true hname, foldl_nil]

/-- The text of a path with one more part. -/
theorem text_concat {parts : List Text} (name : Text) :
    Path.text ⟨true, parts ++ [name]⟩ =
      (if parts = [] then [] else Path.text ⟨true, parts⟩) ++ '/' :: name := by
  have hrooted : ∀ q : List Text, Path.text ⟨true, q⟩ = '/' :: ['/'].intercalate q := by
    intro q
    exact if_pos rfl
  rw [hrooted]
  by_cases hnil : parts = []
  · rw [if_pos hnil, hnil, nil_append, intercalate_singleton, nil_append]
  · rw [if_neg hnil, hrooted, cons_append]
    refine congrArg ('/' :: ·) ?_
    induction parts with
    | nil => exact absurd rfl hnil
    | cons part parts ih =>
      cases parts with
      | nil =>
        rw [singleton_append, intercalate_cons_cons, intercalate_singleton,
          intercalate_singleton, append_assoc, singleton_append]
      | cons next parts =>
        have hrest := ih (cons_ne_nil _ _)
        rw [cons_append, cons_append, intercalate_cons_cons, ← cons_append,
          hrest, intercalate_cons_cons, append_assoc, append_assoc,
          append_assoc]

/-- The folder a path from the root is in has its parts but the last. -/
theorem dir_text {p : Path} (h : p.Absolute) : dir p.text = Path.text ⟨true, p.parts.dropLast⟩ := by
  obtain ⟨rooted, parts⟩ := p
  obtain rfl : rooted = true := h.rooted
  obtain rfl | ⟨init, name, rfl⟩ := eq_nil_or_concat' parts
  · rfl
  · have hinit : Path.Absolute ⟨true, init⟩ :=
      ⟨rfl, fun part hpart => h.names part (mem_append_left _ hpart)⟩
    have hname : IsName name := h.names name (by simp)
    have hdrop : ((Path.text ⟨true, init ++ [name]⟩).reverse.dropWhile (· ≠ '/')).reverse =
        (if init = [] then [] else Path.text ⟨true, init⟩) ++ ['/'] := by
      rw [text_concat, reverse_append, reverse_cons, append_assoc,
        singleton_append, dropWhile_append_of_pos, dropWhile_cons_of_neg,
        reverse_cons, reverse_reverse]
      · simp
      · intro c hc
        refine decide_eq_true ?_
        intro heq
        exact hname.slash (heq ▸ mem_reverse.mp hc)
    unfold dir clean
    rw [hdrop]
    dsimp only
    rw [dropLast_concat]
    by_cases hnil : init = []
    · rw [if_pos hnil, hnil]
      rfl
    · rw [if_neg hnil, parse_append hinit.isAbs_text, splitOn_nil, parse_text hinit]
      rfl

/-! ### One path within another -/

/-- Parts one after another begin with the first, up to a slash. -/
theorem takeWhile_intercalate {part : Text} (hslash : '/' ∉ part) (parts : List Text) :
    (['/'].intercalate (part :: parts)).takeWhile (· ≠ '/') = part := by
  have hall : ∀ c ∈ part, decide (c ≠ '/') = true := by
    intro c hc
    refine decide_eq_true ?_
    intro heq
    exact hslash (heq ▸ hc)
  cases parts with
  | nil =>
    rw [intercalate_singleton, ← append_nil part, takeWhile_append_of_pos hall,
      takeWhile_nil]
  | cons next parts =>
    rw [intercalate_cons_cons, append_assoc, takeWhile_append_of_pos hall]
    simp

/-- `rel != ".." && !strings.HasPrefix(rel, "../")`, and not the folder itself. -/
def isBelow (rel : Text) : Bool :=
  rel ≠ ['.'] && rel ≠ dots && !(['.', '.', '/'].isPrefixOf rel)

/-- A way leads below if its first part is a name. -/
theorem isBelow_name {part : Text} (h : IsName part) (parts : List Text) :
    isBelow (['/'].intercalate (part :: parts)) = true := by
  have hfirst := takeWhile_intercalate h.slash parts
  unfold isBelow
  simp only [Bool.and_eq_true, Bool.not_eq_true', decide_eq_true_eq, ne_eq]
  refine ⟨⟨?_, ?_⟩, ?_⟩
  · intro heq
    rw [heq] at hfirst
    exact h.ne_dot hfirst.symm
  · intro heq
    rw [heq] at hfirst
    exact h.ne_dots hfirst.symm
  · rw [← Bool.not_eq_true, isPrefixOf_iff_prefix]
    intro hstart
    obtain ⟨rest, hrest⟩ := hstart
    rw [← hrest] at hfirst
    exact h.ne_dots hfirst.symm

/-- A way that goes up first doesn't lead below. -/
theorem isBelow_dots (parts : List Text) : isBelow (['/'].intercalate (dots :: parts)) = false := by
  cases parts with
  | nil => rfl
  | cons next parts =>
    have hstart :
        ['.', '.', '/'].isPrefixOf (['/'].intercalate (dots :: next :: parts)) = true := by
      rw [ isPrefixOf_iff_prefix, intercalate_cons_cons]
      exact prefix_append _ _
    unfold isBelow
    rw [hstart]
    simp

theorem relParts_cases {base : List Text} (targ : List Text) (hbase : ∀ part ∈ base, IsName part) :
    (∃ rest, targ = base ++ rest ∧ relParts base targ = some rest) ∨
      (¬ base <+: targ ∧ ∃ rest, relParts base targ = some (dots :: rest)) := by
  induction base generalizing targ with
  | nil => exact .inl ⟨targ, rfl, by rw [relParts]⟩
  | cons b base ih =>
    cases targ with
    | nil =>
      right
      refine ⟨by simp, base.map fun _ => dots, ?_⟩
      rw [relParts]
      · rfl
      · simp
    | cons t targ =>
      rw [relParts]
      by_cases hbt : b = t
      · subst hbt
        rw [if_pos rfl]
        obtain ⟨rest, rfl, hrel⟩ | ⟨hnot, rest, hrel⟩ :=
          ih targ fun q hq => hbase q (mem_cons_of_mem _ hq)
        · exact .inl ⟨rest, rfl, hrel⟩
        · refine .inr ⟨?_, rest, hrel⟩
          intro hstart
          exact hnot (cons_prefix_cons.mp hstart).2
      · right
        rw [if_neg hbt, if_neg (hbase b mem_cons_self).ne_dots]
        refine ⟨?_, base.map (fun _ => dots) ++ t :: targ, rfl⟩
        intro hstart
        exact hbt (cons_prefix_cons.mp hstart).1

/-- The way from one path from the root to another. -/
theorem rel_abs {base targ : Text} (hb : isAbs base = true) (ht : isAbs targ = true) :
    rel base targ = if (parse targ).parts = (parse base).parts then some ['.']
      else (relParts (parse base).parts (parse targ).parts).map ['/'].intercalate := by
  have hdot : clean targ ≠ ['.'] := by
    intro heq
    have habs := absolute_clean ht
    rw [heq] at habs
    cases habs
  have hsame : clean targ = clean base ↔ (parse targ).parts = (parse base).parts := by
    constructor
    · intro heq
      rw [← parse_clean ht, heq, parse_clean hb]
    · intro heq
      refine congrArg Path.text ?_
      exact Path.mk.injEq _ _ _ _ ▸
        ⟨(absolute_parse ht).rooted.trans (absolute_parse hb).rooted.symm, heq⟩
  have habs : ¬ isAbs (clean base) ≠ isAbs (clean targ) := by
    rw [absolute_clean hb, absolute_clean ht]
    exact fun hne => hne rfl
  unfold rel
  by_cases hparts : (parse targ).parts = (parse base).parts
  · rw [if_pos (hsame.mpr hparts), if_pos hparts]
  · rw [if_neg (fun heq => hparts (hsame.mp heq)), if_neg hparts, if_neg habs]
    dsimp only
    rw [if_neg hdot]

/-- **One path from the root leads below another just if its parts go on where the other's end.** -/
theorem rel_isBelow_iff {base targ : Text} (hb : isAbs base = true) (ht : isAbs targ = true) :
    (rel base targ).any isBelow = true ↔
      ∃ name rest, (parse targ).parts = (parse base).parts ++ name :: rest := by
  rw [rel_abs hb ht]
  by_cases hsame : (parse targ).parts = (parse base).parts
  · rw [if_pos hsame, hsame]
    constructor
    · intro hbelow
      cases hbelow
    · intro hex
      obtain ⟨name, rest, heq⟩ := hex
      have hlen := congrArg List.length heq
      rw [length_append, length_cons] at hlen
      omega
  · rw [if_neg hsame]
    obtain ⟨rest, heq, hrel⟩ | ⟨hnot, rest, hrel⟩ :=
      relParts_cases (parse targ).parts (absolute_parse hb).names
    · rw [hrel, Option.map_some, Option.any_some]
      cases rest with
      | nil =>
        rw [append_nil] at heq
        exact absurd heq hsame
      | cons name rest =>
        have hname : IsName name := (absolute_parse ht).names name (by rw [heq]; simp)
        rw [isBelow_name hname]
        exact ⟨fun _ => ⟨name, rest, heq⟩, fun _ => rfl⟩
    · rw [hrel, Option.map_some, Option.any_some, isBelow_dots]
      constructor
      · intro hbelow
        cases hbelow
      · intro hex
        obtain ⟨name, rest, heq⟩ := hex
        refine absurd ?_ hnot
        rw [heq]
        exact prefix_append _ _

end Filepath
