/-
A path belongs to at most one environment.

Every workspace is three names below the pool's root: `envs/<id>/live`, or `worktrees/` and two
parts that match the pattern.  Each statement of each call keeps that, so it holds however calls are
interleaved; and paths of the same depth that are different are not inside one another.  Which of
two creates for one path gets it is decided by the table alone, when the second writes its row.
-/
import Fern.Proofs.Preview.Route
import Fern.Store.Find

namespace Fern

open List

variable {id : EnvID} {path : Text} {r : Row}

namespace Find

open Filepath Prog

variable {root : Text} {x : Rows}

/-! ### The shape of a workspace -/

theorem isName_of_checkEnvID (h : checkEnvID id = true) : IsName id.toList := by
  have hplain := Preview.checkEnvID_idChar h
  have hdot : '.' ∉ id.toList := by
    intro hmem
    exact (Preview.idChar_plain (hplain _ hmem)).2.2.2.1 rfl
  refine ⟨Preview.checkEnvID_ne_nil h, ?_, ?_, ?_⟩
  · intro heq
    rw [heq] at hdot
    exact hdot mem_cons_self
  · intro heq
    rw [heq] at hdot
    exact hdot mem_cons_self
  · intro hmem
    have hchar := hplain _ hmem
    revert hchar
    decide

theorem isName_of_pathPart {part : Text} (h : pathPart (String.ofList part) = true) :
    IsName part := by
  unfold pathPart at h
  rw [String.toList_ofList] at h
  cases part with
  | nil => cases h
  | cons c rest =>
    simp only [Bool.and_eq_true, Bool.or_eq_true, decide_eq_true_eq, all_eq_true] at h
    obtain ⟨⟨hfirst, -⟩, hrest⟩ := h
    have hdot : c ≠ '.' := by
      intro heq
      subst heq
      revert hfirst
      decide
    refine ⟨cons_ne_nil c rest, ?_, ?_, ?_⟩
    · intro heq
      exact hdot (List.cons.inj heq).1
    · intro heq
      exact hdot (List.cons.inj heq).1
    · intro hmem
      obtain rfl | hmem := mem_cons.mp hmem
      · revert hfirst
        decide
      · have hchar := hrest _ hmem
        revert hchar
        decide

/-- A cleaned path three names below the pool's root. -/
def Placed (root t : Text) : Prop :=
  t = Filepath.Path.text (parse t) ∧ (parse t).Absolute ∧
    ∃ a b c, (parse t).parts = (parse root).parts ++ [a, b, c]

theorem placed_text (hroot : isAbs root = true) {a b c : Text} (ha : IsName a) (hb : IsName b)
    (hc : IsName c) : Placed root (Filepath.Path.text ⟨true, (parse root).parts ++ [a, b, c]⟩) := by
  have habs : Filepath.Path.Absolute ⟨true, (parse root).parts ++ [a, b, c]⟩ := by
    refine ⟨rfl, ?_⟩
    intro part hpart
    obtain hpart | hpart := mem_append.mp hpart
    · exact (absolute_parse hroot).names part hpart
    · simp only [mem_cons, not_mem_nil, or_false] at hpart
      obtain rfl | rfl | rfl := hpart
      · exact ha
      · exact hb
      · exact hc
  unfold Placed
  rw [parse_text habs]
  exact ⟨rfl, habs, a, b, c, rfl⟩

theorem join_name_text {t name : Text} (h : isAbs t = true) (hname : IsName name) :
    join t name = Filepath.Path.text ⟨true, (parse t).parts ++ [name]⟩ := by
  rw [← parse_join h hname, join_eq h, clean, ← clean, parse_clean (isAbs_append h _)]
  rfl

theorem envs_isName : IsName "envs".toList := by
  refine ⟨?_, ?_, ?_, ?_⟩ <;> decide

theorem live_isName : IsName "live".toList := by
  refine ⟨?_, ?_, ?_, ?_⟩ <;> decide

theorem worktrees_isName : IsName "worktrees".toList := by
  refine ⟨?_, ?_, ?_, ?_⟩ <;> decide

theorem placed_livePath (hroot : isAbs root = true) (hid : checkEnvID id = true) :
    Placed root (livePath root id) := by
  have hname := isName_of_checkEnvID hid
  have htext : livePath root id =
      Filepath.Path.text ⟨true,
        (parse root).parts ++ ["envs".toList, id.toList, "live".toList]⟩ := by
    unfold livePath
    rw [join_name_text (isAbs_join (isAbs_join hroot _) _) live_isName,
      parse_join (isAbs_join hroot _) hname, parse_join hroot envs_isName]
    simp only [append_assoc, cons_append, nil_append]
  rw [htext]
  exact placed_text hroot envs_isName hname live_isName

theorem parts_of_rel {base targ r repo name : Text} (hb : isAbs base = true)
    (ht : isAbs targ = true) (hrel : rel base targ = some r)
    (hsplit : r.splitOn '/' = [repo, name]) (hrepo : IsName repo) :
    (parse targ).parts = (parse base).parts ++ [repo, name] := by
  rw [rel_abs hb ht] at hrel
  split at hrel
  case isTrue =>
    rw [← Option.some.inj hrel] at hsplit
    cases hsplit
  case isFalse =>
    obtain ⟨rest, heq, hway⟩ | ⟨-, rest, hway⟩ :=
      relParts_cases (parse targ).parts (absolute_parse hb).names
    · rw [hway, Option.map_some] at hrel
      rw [← Option.some.inj hrel] at hsplit
      cases rest with
      | nil => cases hsplit
      | cons first rest =>
        have hslash : ∀ part ∈ first :: rest, '/' ∉ part := by
          intro part hpart
          refine ((absolute_parse ht).names part ?_).slash
          rw [heq]
          exact mem_append_right _ hpart
        rw [splitOn_intercalate '/' hslash (cons_ne_nil _ _)] at hsplit
        rw [heq, hsplit]
    · -- the way goes up first, and its first part is no name
      rw [hway, Option.map_some] at hrel
      have hdots := takeWhile_intercalate (by decide : '/' ∉ dots) rest
      have hjoined : ['/'].intercalate (r.splitOn '/') = r := intercalate_splitOn '/'
      rw [Option.some.inj hrel, ← hjoined, hsplit, takeWhile_intercalate hrepo.slash] at hdots
      exact absurd hdots hrepo.ne_dots

theorem placed_of_rel (hroot : isAbs root = true) {r repo name : Text}
    (hrel : rel (worktrees root) (clean path) = some r) (hsplit : r.splitOn '/' = [repo, name])
    (hrepo : pathPart (String.ofList repo) = true) (hname : pathPart (String.ofList name) = true) :
    Placed root (clean path) := by
  have hbase : isAbs (worktrees root) = true := isAbs_join hroot _
  -- there is no way to a path that isn't from the root
  have habs : isAbs path = true := by
    by_contra hnot
    rw [Bool.not_eq_true] at hnot
    unfold rel at hrel
    have hclean : isAbs (clean (clean path)) = false := by
      rw [isAbs_clean, isAbs_clean, hnot]
    have hne : clean (clean path) ≠ clean (worktrees root) := by
      intro heq
      rw [heq, absolute_clean hbase] at hclean
      cases hclean
    rw [if_neg hne, if_pos (by rw [absolute_clean hbase, hclean]; decide)] at hrel
    cases hrel
  have hparts := parts_of_rel hbase (absolute_clean habs) hrel hsplit (isName_of_pathPart hrepo)
  have hworktrees : (parse (worktrees root)).parts =
      (parse root).parts ++ ["worktrees".toList] := by
    unfold worktrees
    rw [parse_join hroot worktrees_isName]
  rw [hworktrees, append_assoc, singleton_append, parse_clean habs] at hparts
  have htext : clean path =
      Filepath.Path.text ⟨true, (parse root).parts ++ ["worktrees".toList, repo, name]⟩ := by
    rw [← hparts, (absolute_parse habs).eta]
    rfl
  rw [htext]
  exact placed_text hroot worktrees_isName (isName_of_pathPart hrepo) (isName_of_pathPart hname)

/-! ### What every call keeps -/

/-- The workspaces of a table are placed. -/
def AllPlaced (root : Text) (x : Rows) : Prop := ∀ r ∈ x.list, Placed root r.workspace

theorem keeps_ask {β : Type} {Q : β → Prop} {q : Rows → β}
    (h : ∀ x, AllPlaced root x → Q (q x)) : Keeps (AllPlaced root) Q (ask q) := by
  refine keeps_bind keeps_outside ?_
  intro _ _
  exact keeps_query h

theorem keeps_run {f : Rows → Except Err Rows}
    (h : ∀ x y, AllPlaced root x → f x = .ok y → AllPlaced root y) :
    Keeps (AllPlaced root) (fun _ => True) (run f) := by
  refine keeps_bind keeps_outside ?_
  intro _ _
  exact keeps_statement h

theorem keeps_get (id : EnvID) :
    Keeps (AllPlaced root) (fun _ => checkEnvID id = true) (get id) := by
  unfold get
  split
  case isTrue hid =>
    refine keeps_ask ?_
    intro x _
    exact hid
  case isFalse => exact keeps_fail _

theorem allPlaced_insertEnv {row : Row} (hrow : Placed root row.workspace) (x y : Rows)
    (hx : AllPlaced root x) (h : x.insertEnv row = .ok y) : AllPlaced root y := by
  unfold Rows.insertEnv at h
  split at h
  case isTrue => cases h
  case isFalse =>
    rw [← Except.ok.inj h]
    intro r hr
    obtain hr | hr := mem_append.mp hr
    · exact hx r hr
    · rw [mem_singleton.mp hr]
      exact hrow

theorem allPlaced_setEnvGit {git : Text} (hx : AllPlaced root x) :
    AllPlaced root (x.setEnvGit id git) := by
  intro r hr
  obtain ⟨r', hr', rfl⟩ := mem_map.mp hr
  have heq : (Rows.setGit id git r').workspace = r'.workspace :=
    congrFun (Rows.workspace_setGit id git) r'
  rw [heq]
  exact hx r' hr'

theorem allPlaced_deleteEnv (hx : AllPlaced root x) :
    AllPlaced root (x.deleteEnv id) := by
  intro r hr
  exact hx r (mem_filter.mp hr).1

theorem keeps_checkWorkspace (hroot : isAbs root = true) (path : Text) :
    Keeps (AllPlaced root) (Placed root) (checkWorkspace root path) := by
  unfold checkWorkspace
  dsimp only
  split
  case h_1 repo name hmap =>
    obtain ⟨r, hrel, hsplit⟩ := Option.map_eq_some_iff.mp hmap
    split
    case isTrue hpattern =>
      rw [Bool.and_eq_true] at hpattern
      refine keeps_bind (keeps_learn Bool) ?_
      intro isLink _
      split
      case isTrue => exact keeps_fail _
      case isFalse =>
        refine keeps_bind (keeps_ask (Q := fun _ => True) fun _ _ => trivial) ?_
        intro other _
        split
        case h_1 => exact keeps_fail _
        case h_2 => exact keeps_pure (placed_of_rel hroot hrel hsplit hpattern.1 hpattern.2)
    case isFalse => exact keeps_fail _
  case h_2 => exact keeps_fail _

theorem keeps_workspaceOf (hroot : isAbs root = true) (hid : checkEnvID id = true)
    (opts : Options) :
    Keeps (AllPlaced root) (Placed root) (workspaceOf root id opts) := by
  unfold workspaceOf
  split
  case isTrue => exact keeps_checkWorkspace hroot _
  case isFalse => exact keeps_pure (placed_livePath hroot hid)

theorem keeps_forkWorkspace (src : SnapshotRef) :
    Keeps (AllPlaced root) (fun _ => True) (forkWorkspace src) := by
  unfold forkWorkspace
  split
  case isTrue =>
    refine keeps_bind (keeps_get _) ?_
    intro env _
    split
    case h_1 => exact keeps_outside
    case h_2 => exact keeps_fail _
  case isFalse => exact keeps_outside

theorem keeps_forkOrMake (fork : Option SnapshotRef) :
    Keeps (AllPlaced root) (fun _ => True) (forkOrMake fork) := by
  cases fork with
  | some src => exact keeps_forkWorkspace src
  | none => exact keeps_outside

theorem keeps_create (hroot : isAbs root = true) (hid : checkEnvID id = true) (opts : Options) :
    Keeps (AllPlaced root) (fun _ => True) (create root id opts) := by
  refine keeps_bind (keeps_workspaceOf hroot hid opts) ?_
  intro workspace hplaced
  refine keeps_bind keeps_outside ?_
  intro _ _
  refine keeps_bind (keeps_forkOrMake opts.fork) ?_
  intro _ _
  refine keeps_bind keeps_outside ?_
  intro _ _
  refine keeps_bind (keeps_learn Text) ?_
  intro git _
  refine keeps_bind (keeps_learn Int) ?_
  intro created _
  refine keeps_bind (keeps_learn String) ?_
  intro boxToken _
  -- nothing is left to use of the path's check but what it says of the path
  refine keeps_bind (keeps_run (allPlaced_insertEnv hplaced)) ?_
  intro _ _
  exact keeps_outside

theorem keeps_readopt (env : Row) :
    Keeps (AllPlaced root) (fun _ => True) (readopt root env) := by
  unfold readopt
  split
  case isTrue => exact trivial
  case isFalse =>
    refine keeps_bind (keeps_learn Bool) ?_
    intro isSubvolume _
    split
    case isTrue => exact trivial
    case isFalse =>
      refine keeps_bind keeps_outside ?_
      intro _ _
      refine keeps_bind (keeps_learn Text) ?_
      intro git _
      refine keeps_run ?_
      intro x y hx heq
      rw [← Except.ok.inj heq]
      exact allPlaced_setEnvGit hx

theorem keeps_Create (hroot : isAbs root = true) (id : EnvID) (opts : Options) :
    Keeps (AllPlaced root) (fun _ => True) (Create root id opts) := by
  refine keeps_bind (keeps_get id) ?_
  intro env hid
  split
  case h_1 env =>
    split
    case isTrue => exact keeps_fail _
    case isFalse => exact keeps_readopt env
  case h_2 =>
    split
    case isTrue => exact keeps_fail _
    case isFalse =>
      refine keeps_bind keeps_outside ?_
      intro _ _
      exact keeps_create hroot hid opts

theorem keeps_Delete (id : EnvID) : Keeps (AllPlaced root) (fun _ => True) (Delete id) := by
  refine keeps_bind (keeps_get id) ?_
  intro env _
  have hdrop : Keeps (AllPlaced root) (fun _ => True) (dropRows id env) := by
    cases env with
    | none => exact trivial
    | some env =>
      refine keeps_bind keeps_outside ?_
      intro _ _
      refine keeps_run ?_
      intro x y hx heq
      rw [← Except.ok.inj heq]
      exact allPlaced_deleteEnv hx
  refine keeps_bind hdrop ?_
  intro _ _
  exact keeps_outside

theorem keeps_Reconcile : Keeps (AllPlaced root) (fun _ => True) Reconcile := by
  refine keeps_bind keeps_outside ?_
  intro _ _
  refine keeps_bind (keeps_learn (List EnvID)) ?_
  intro dirs _
  refine keeps_each ?_ dirs
  intro id
  unfold reconcileDir
  split
  case isTrue =>
    refine keeps_bind (keeps_get id) ?_
    intro _ _
    exact keeps_outside
  case isFalse => exact trivial

/-- However calls run at the same time, every workspace is three names below the root. -/
theorem allPlaced_of_reached (hroot : isAbs root = true) (h : Reached (Calls root) Rows.empty x) :
    AllPlaced root x := by
  refine h.keeps ?_ ?_
  · intro p hp
    cases hp with
    | create id opts => exact keeps_Create hroot id opts
    | delete id => exact keeps_Delete id
    | reconcile => exact keeps_Reconcile
  · intro r hr
    cases hr

/-! ### Workspaces are apart -/

/-- The workspace of a row is the path, or a folder the path is in. -/
def Holds (r : Row) (path : Text) : Prop := (parse r.workspace).parts <+: (parse path).parts

theorem eq_of_workspace {r' : Row} (hr : r ∈ x.list) (hr' : r' ∈ x.list)
    (h : r.workspace = r'.workspace) : r = r' :=
  inj_on_of_nodup_map x.workspaceUnique hr hr' h

/-- Of two workspaces that hold one path, one is in the other, and so they are one. -/
theorem eq_of_holds (hx : AllPlaced root x) {r' : Row} (hr : r ∈ x.list) (hr' : r' ∈ x.list)
    (h : Holds r path) (h' : Holds r' path) : r = r' := by
  obtain ⟨htext, habs, a, b, c, hparts⟩ := hx r hr
  obtain ⟨htext', habs', a', b', c', hparts'⟩ := hx r' hr'
  have hlen : (parse r.workspace).parts.length = (parse r'.workspace).parts.length := by
    rw [hparts, hparts', length_append, length_append]
    rfl
  have heq : (parse r.workspace).parts = (parse r'.workspace).parts :=
    (prefix_of_prefix_length_le h h' (Nat.le_of_eq hlen)).eq_of_length hlen
  refine eq_of_workspace hr hr' ?_
  rw [htext, htext']
  refine congrArg Filepath.Path.text ?_
  exact Filepath.Path.mk.injEq _ _ _ _ ▸ ⟨habs.rooted.trans habs'.rooted.symm, heq⟩

/-! ### Going up from a path -/

theorem mem_of_envAt? {t : Text} (h : x.envAt? t = some r) :
    r ∈ x.list ∧ r.workspace = t := by
  refine ⟨mem_of_find?_eq_some h, ?_⟩
  have hsome := find?_some h
  exact of_decide_eq_true hsome

theorem envAt?_of_mem (hr : r ∈ x.list) : x.envAt? r.workspace = some r := by
  cases hfind : x.envAt? r.workspace with
  | none =>
    have hnone := find?_eq_none.mp hfind r hr
    exact absurd (decide_eq_true rfl) hnone
  | some r' =>
    obtain ⟨hr', hws⟩ := mem_of_envAt? hfind
    rw [eq_of_workspace hr' hr hws]

/-- What going up from a path finds: the row whose workspace holds it, or none if there is none. -/
def Answer (x : Rows) (path : Text) (found : Option Row) : Prop :=
  ∀ r, found = some r ↔ r ∈ x.list ∧ Holds r path

theorem not_prefix_root (hx : AllPlaced root x) (hr : r ∈ x.list) {parts : List Text}
    (hlen : parts.length ≤ (parse root).parts.length) : ¬ (parse r.workspace).parts <+: parts := by
  intro hstart
  obtain ⟨-, -, a, b, c, hparts⟩ := hx r hr
  have hle := hstart.length_le
  rw [hparts, length_append] at hle
  simp only [length_cons, length_nil] at hle
  omega

theorem answer_none (h : ∀ r ∈ x.list, ¬ Holds r path) : Answer x path none := by
  intro r
  constructor
  · intro heq
    cases heq
  · intro hboth
    exact absurd hboth.2 (h r hboth.1)

/-- **Going up from the parts of a path comes to its answer**, in no more rounds than it has parts
and one more. -/
theorem findFrom_answer (hx : AllPlaced root x) (parts : List Text) :
    Filepath.Path.Absolute ⟨true, parts⟩ → ∀ rounds, parts.length < rounds →
      ∃ found, findFrom root x rounds (Filepath.Path.text ⟨true, parts⟩) = some found ∧
        Answer x (Filepath.Path.text ⟨true, parts⟩) found := by
  induction parts using List.reverseRecOn with
  | nil =>
    intro habs rounds hrounds
    obtain ⟨k, rfl⟩ := Nat.exists_eq_succ_of_ne_zero (Nat.ne_of_gt hrounds)
    have hdir : Filepath.Path.text ⟨true, []⟩ = dir (Filepath.Path.text ⟨true, []⟩) := rfl
    refine ⟨none, ?_, answer_none ?_⟩
    · rw [findFrom, if_neg (fun hand => hand.2 hdir)]
    · intro r hr
      unfold Holds
      rw [parse_text habs]
      exact not_prefix_root hx hr (Nat.zero_le _)
  | append_singleton init name ih =>
    intro habs rounds hrounds
    obtain ⟨k, rfl⟩ := Nat.exists_eq_succ_of_ne_zero (Nat.ne_of_gt (Nat.zero_lt_of_lt hrounds))
    have hinit : Filepath.Path.Absolute ⟨true, init⟩ :=
      ⟨rfl, fun part hpart => habs.names part (mem_append_left _ hpart)⟩
    have hdir : dir (Filepath.Path.text ⟨true, init ++ [name]⟩) =
        Filepath.Path.text ⟨true, init⟩ := by
      rw [dir_text habs, dropLast_concat]
    rw [findFrom, hdir]
    by_cases hstop : Filepath.Path.text ⟨true, init ++ [name]⟩ = root
    · rw [if_neg (fun hand => hand.1 hstop)]
      refine ⟨none, rfl, answer_none ?_⟩
      intro r hr
      unfold Holds
      rw [parse_text habs]
      refine not_prefix_root hx hr ?_
      rw [← hstop, parse_text habs]
    · have hup : Filepath.Path.text ⟨true, init ++ [name]⟩ ≠ Filepath.Path.text ⟨true, init⟩ := by
        intro heq
        have hparts := congrArg Filepath.Path.parts (text_injective habs hinit heq)
        simp at hparts
      rw [if_pos ⟨hstop, hup⟩]
      cases hat : x.envAt? (Filepath.Path.text ⟨true, init ++ [name]⟩) with
      | some r =>
        obtain ⟨hr, hws⟩ := mem_of_envAt? hat
        have hholds : Holds r (Filepath.Path.text ⟨true, init ++ [name]⟩) := by
          unfold Holds
          rw [hws]
        refine ⟨some r, rfl, ?_⟩
        intro r'
        constructor
        · intro heq
          rw [← Option.some.inj heq]
          exact ⟨hr, hholds⟩
        · intro hboth
          rw [eq_of_holds hx hr hboth.1 hholds hboth.2]
      | none =>
        have hlen : init.length < k := by
          rw [length_append, length_singleton] at hrounds
          omega
        obtain ⟨found, hfound, hanswer⟩ := ih hinit k hlen
        refine ⟨found, hfound, ?_⟩
        intro r
        rw [hanswer r]
        refine and_congr_right ?_
        intro hr
        unfold Holds
        rw [parse_text habs, parse_text hinit]
        dsimp only
        rw [prefix_concat_iff]
        constructor
        · exact .inr
        · intro hor
          obtain heq | hstart := hor
          · -- then its workspace is the path itself, and was asked for
            obtain ⟨htext, hrow, -⟩ := hx r hr
            have hws : r.workspace = Filepath.Path.text ⟨true, init ++ [name]⟩ := by
              rw [htext, ← heq, hrow.eta]
            rw [← hws, envAt?_of_mem hr] at hat
            cases hat
          · exact hstart

theorem findByPath_answer (hx : AllPlaced root x) (hpath : isAbs path = true) {rounds : Nat}
    (hrounds : (parse path).parts.length < rounds) :
    ∃ found, findByPath root x rounds path = some found ∧ Answer x path found := by
  have habs := absolute_parse hpath
  have hanswer := findFrom_answer hx (parse path).parts (habs.eta ▸ habs) rounds hrounds
  rw [habs.eta] at hanswer
  obtain ⟨found, hfound, hanswer⟩ := hanswer
  refine ⟨found, hfound, ?_⟩
  intro r
  rw [hanswer r]
  unfold Holds
  rw [parse_text habs]

theorem answer_unique {y : Rows} {found found' : Option Row} (hperm : y.list.Perm x.list)
    (h : Answer x path found) (h' : Answer y path found') :
    found' = found := by
  refine Option.ext ?_
  intro r
  rw [h' r, h r, hperm.mem_iff]

/-- **A path belongs to at most one environment.**  In every table that creates, forks, deletes and
reconciles bring about together, the workspaces of different environments are different and none is
in another; and going up from a path from the root ends, with the environment whose workspace is the
path or holds it, and with none if there is none, whatever order the rows are in. -/
theorem path_one_environment (hroot : isAbs root = true)
    (h : Reached (Calls root) Rows.empty x) :
    (∀ r ∈ x.list, ∀ r' ∈ x.list, r.id ≠ r'.id →
      r.workspace ≠ r'.workspace ∧ ¬ Holds r r'.workspace) ∧
    ∀ path, isAbs path = true → ∃ found,
      (∀ r, found = some r ↔ r ∈ x.list ∧ Holds r path) ∧
      ∃ rounds, ∀ more, rounds ≤ more → ∀ y : Rows, y.list.Perm x.list →
        findByPath root y more path = some found := by
  have hx := allPlaced_of_reached hroot h
  refine ⟨?_, ?_⟩
  · intro r hr r' hr' hid
    refine ⟨?_, ?_⟩
    · intro heq
      exact hid (congrArg Row.id (eq_of_workspace hr hr' heq))
    · intro hholds
      exact hid (congrArg Row.id (eq_of_holds hx hr hr' hholds prefix_rfl))
  · intro path hpath
    obtain ⟨found, -, hanswer⟩ := findByPath_answer hx hpath (Nat.lt_succ_self _)
    refine ⟨found, hanswer, (parse path).parts.length + 1, ?_⟩
    intro more hmore y hperm
    have hy : AllPlaced root y := fun r hr => hx r (hperm.mem_iff.mp hr)
    obtain ⟨found', hfound', hanswer'⟩ := findByPath_answer hy hpath hmore
    rw [hfound', answer_unique hperm hanswer hanswer']

/-! ### A create that nothing stops -/

theorem leads_ask {β : Type} (q : Rows → β) : Leads x (ask q) x (.ok (q x)) :=
  leads_bind leads_outside leads_query

theorem leads_run {f : Rows → Except Err Rows} {y : Rows} (h : f x = .ok y) :
    Leads x (run f) y (.ok ()) := leads_bind leads_outside (leads_statement h)

theorem leads_get (hid : checkEnvID id = true) :
    Leads x (get id) x (.ok (x.env? id)) := by
  unfold get
  rw [if_pos hid]
  exact leads_ask _

/-- A create of a new environment writes its row, at the workspace it has settled on. -/
theorem leads_Create {opts : Options} (workspace : Text) {y : Rows} (hid : checkEnvID id = true)
    (hnew : x.env? id = none) (hfork : opts.fork = none)
    (hws : Leads x (workspaceOf root id opts) x (.ok workspace))
    (hinsert : x.insertEnv ⟨id, workspace, [], 0, ""⟩ = .ok y) :
    Leads x (Create root id opts) y (.ok ()) := by
  refine leads_bind (leads_get hid) ?_
  rw [hnew]
  dsimp only
  rw [if_neg (by rw [hfork]; simp)]
  refine leads_bind leads_outside (leads_bind hws (leads_bind leads_outside ?_))
  rw [hfork]
  refine leads_bind leads_outside (leads_bind leads_outside ?_)
  refine leads_bind (leads_learn []) (leads_bind (leads_learn 0) (leads_bind (leads_learn "") ?_))
  exact leads_bind (leads_run hinsert) leads_outside

def demoRow : Row := ⟨"demo", "/fern/envs/demo/live".toList, [], 0, ""⟩

def treeRow : Row := ⟨"tree", "/fern/worktrees/r/n".toList, [], 0, ""⟩

def demoRows : Rows := ⟨[demoRow], by decide, by decide⟩

def bothRows : Rows := ⟨[demoRow, treeRow], by decide, by decide⟩

theorem reached_bothRows : Reached (Calls "/fern".toList) Rows.empty bothRows := by
  have hlive : livePath "/fern".toList "demo" = demoRow.workspace := by decide +kernel
  have hdemo : Leads Rows.empty (Create "/fern".toList "demo" {}) demoRows (.ok ()) := by
    refine leads_Create demoRow.workspace (by decide) rfl rfl ?_ rfl
    rw [← hlive]
    exact leads_pure
  have hclean : clean "/fern/worktrees/r/x/../n/".toList = treeRow.workspace := by decide +kernel
  have hrel : (rel (worktrees "/fern".toList) treeRow.workspace).map (fun rel => rel.splitOn '/') =
      some ["r".toList, "n".toList] := by decide +kernel
  have hfree : demoRows.envAt? treeRow.workspace = none := by decide +kernel
  have htree : Leads demoRows
      (Create "/fern".toList "tree" { workspace := "/fern/worktrees/r/x/../n/".toList }) bothRows
      (.ok ()) := by
    refine leads_Create treeRow.workspace (by decide) rfl rfl ?_ rfl
    unfold workspaceOf
    rw [if_pos (by decide)]
    unfold checkWorkspace
    dsimp only
    rw [hclean, hrel]
    dsimp only
    rw [if_pos (by decide)]
    refine leads_bind (leads_learn false) ?_
    rw [if_neg (by decide)]
    refine leads_bind (leads_ask _) ?_
    rw [hfree]
    exact leads_pure
  have hempty : Reached (Calls "/fern".toList) Rows.empty Rows.empty := ⟨[], .refl⟩
  exact (hempty.leads (.create _ _) hdemo).leads (.create _ _) htree

/-- A file in the second's workspace is the second's. -/
theorem path_one_environment_both :
    demoRow.workspace ≠ treeRow.workspace ∧ ¬ Holds demoRow treeRow.workspace ∧
      findByPath "/fern".toList bothRows 9 "/fern/worktrees/r/n/src/../go.mod".toList =
        some (some treeRow) := by
  have happly := (path_one_environment (by decide) reached_bothRows).1 demoRow (by decide) treeRow
    (by decide) (by decide)
  exact ⟨happly.1, happly.2, by decide +kernel⟩

end Find

end Fern
