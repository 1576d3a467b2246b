import ReadOnlyKeys.OutputPaths
import Mathlib.Data.List.DropRight

/-!
# Names of files

The commands make the name of an output file from the name of their input. A
path is Unicode text. It is taken apart from its end: what says nothing there is
dropped, and what is left is a directory and a name.
-/
namespace ReadOnlyKeys
open LexicalPath

/-- A component that leads nowhere. -/
def idle (component : List Char) : Bool := component = [] || component = ['.']

/-- What stands before the components of a path: the root, or a dot. -/
def pathFront (path : List Char) : List Char :=
  if path.head? = some '/' then ['/']
  else if path = ['.'] ∨ ['.', '/'] <+: path then ['.'] else []

/-- The components behind the front. -/
def pathBody (path : List Char) : List (List Char) :=
  (path.drop (pathFront path).length).splitOn '/'

/-- `Path::file_name`. -/
def fileName (path : List Char) : Option (List Char) :=
  ((pathBody path).rdropWhile idle).getLast?.filter (· ≠ ['.', '.'])

/-- `Path::parent`, of a path that has a file name. -/
def parentPath (path : List Char) : List Char :=
  pathFront path ++ ['/'].intercalate (((pathBody path).rdropWhile idle).dropLast.rdropWhile idle)

/-- `PathBuf::set_file_name`. -/
def setFileName (path name : List Char) : List Char :=
  joinPath (if (fileName path).isSome then parentPath path else path) name

/-- A name that stands for itself in a path. -/
structure PlainName (name : List Char) : Prop where
  active : idle name = false
  ne_up : name ≠ ['.', '.']
  slash : '/' ∉ name

section Components

lemma intercalate_concat {cs : List (List Char)} (h : cs ≠ []) (n : List Char) :
    ['/'].intercalate (cs ++ [n]) = ['/'].intercalate cs ++ '/' :: n := by
  induction cs with
  | nil => exact absurd rfl h
  | cons c cs ih =>
    cases cs with
    | nil => simp [List.intercalate]
    | cons d cs =>
      have ih := ih (by simp)
      simp only [List.intercalate, List.cons_append, List.intersperse, List.flatten] at ih ⊢
      simp [ih]

lemma active_iff {component : List Char} :
    idle component = false ↔ component ≠ [] ∧ component ≠ ['.'] := by
  simp [idle]

/-- Where the components behind a front can come from. -/
inductive Behind : List Char → List (List Char) → Prop where
  | root {body} : body ≠ [] → (∀ c ∈ body, '/' ∉ c) → Behind ['/'] body
  | dot {rest} : (∀ c ∈ rest, '/' ∉ c) → Behind ['.'] ([] :: rest)
  | empty : Behind [] [[]]
  | relative {c rest} : idle c = false → (∀ x ∈ c :: rest, '/' ∉ x) → Behind [] (c :: rest)

lemma Behind.slash {front : List Char} {body : List (List Char)} (h : Behind front body) :
    body ≠ [] ∧ ∀ c ∈ body, '/' ∉ c := by
  cases h with
  | root hne hslash => exact ⟨hne, hslash⟩
  | dot hslash => exact ⟨by simp, by simpa using hslash⟩
  | empty => simp
  | relative _ hslash => exact ⟨by simp, hslash⟩

lemma slash_of_mem_splitOn {path c : List Char} (h : c ∈ path.splitOn '/') : '/' ∉ c :=
  fun hc => (SeparatedPath.mem_splitOn '/' path c h '/' hc).2 rfl

/-- Every path is its front and its components. -/
theorem behind_pathBody (path : List Char) : Behind (pathFront path) (pathBody path) ∧
    path = pathFront path ++ ['/'].intercalate (pathBody path) := by
  have hsplit : ∀ rest : List Char, ['/'].intercalate (rest.splitOn '/') = rest := fun _ =>
    List.intercalate_splitOn '/'
  unfold pathBody
  by_cases hroot : path.head? = some '/'
  · obtain ⟨rest, rfl⟩ : ∃ rest, path = '/' :: rest := by
      cases path with
      | nil => cases hroot
      | cons c rest => exact ⟨rest, by rw [Option.some.inj hroot]⟩
    have hdrop : ('/' :: rest).drop (pathFront ('/' :: rest)).length = rest := rfl
    rw [hdrop, hsplit]
    exact ⟨.root (List.splitOn_ne_nil _ _) fun _ => slash_of_mem_splitOn, rfl⟩
  · by_cases hdot : path = ['.'] ∨ ['.', '/'] <+: path
    · have hfront : pathFront path = ['.'] := by rw [pathFront, if_neg hroot, if_pos hdot]
      rw [hfront]
      rcases hdot with rfl | ⟨rest, rfl⟩
      · exact ⟨.dot (by simp), rfl⟩
      · have hdrop : (['.', '/'] ++ rest).drop ['.'].length = '/' :: rest := rfl
        rw [hdrop, hsplit, SeparatedPath.splitOn_cons_sep]
        exact ⟨.dot fun _ => slash_of_mem_splitOn, rfl⟩
    · have hfront : pathFront path = [] := by rw [pathFront, if_neg hroot, if_neg hdot]
      rw [hfront, List.length_nil, List.drop_zero, hsplit]
      refine ⟨?_, rfl⟩
      obtain ⟨c, rest, hcs⟩ := List.exists_cons_of_ne_nil (List.splitOn_ne_nil '/' path)
      have hslash : ∀ x ∈ c :: rest, '/' ∉ x := fun x hx => slash_of_mem_splitOn (hcs ▸ hx)
      have hpath : ['/'].intercalate (c :: rest) = path := hcs ▸ hsplit path
      rw [hcs]
      by_cases hc : idle c = false
      · exact .relative hc hslash
      · -- an idle head is a root, a dot or the empty path
        rw [active_iff, not_and_or, not_not, not_not] at hc
        cases rest with
        | nil =>
          have hsingle : c = path := by simpa [List.intercalate] using hpath
          rcases hc with rfl | rfl
          · exact .empty
          · exact absurd (.inl hsingle.symm) hdot
        | cons d rest =>
          have hcons : c ++ '/' :: ['/'].intercalate (d :: rest) = path := by
            simpa [List.intercalate] using hpath
          rcases hc with rfl | rfl
          · exact absurd (hcons ▸ rfl) hroot
          · exact absurd (.inr ⟨_, hcons⟩) hdot

lemma not_prefix_dot {c rest : List Char} (hc : idle c = false) (hs : '/' ∉ c) :
    ¬ ['.', '/'] <+: c ++ '/' :: rest := by
  rintro ⟨r, hr⟩
  obtain ⟨hne, hdot⟩ := active_iff.mp hc
  rcases c with - | ⟨x, - | ⟨y, c⟩⟩
  · exact hne rfl
  · simp only [List.cons_append, List.cons.injEq] at hr
    exact hdot (by rw [hr.1])
  · simp only [List.cons_append, List.cons.injEq] at hr
    exact hs (by simp [← hr.2.1])

lemma pathFront_relative {c : List Char} {rest : List (List Char)} (hc : idle c = false)
    (hs : '/' ∉ c) : pathFront (['/'].intercalate (c :: rest)) = [] := by
  obtain ⟨hne, hdot⟩ := active_iff.mp hc
  have hform : ∃ tail, ['/'].intercalate (c :: rest) = c ++ tail ∧
      (tail = [] ∨ ∃ more, tail = '/' :: more) := by
    cases rest with
    | nil => exact ⟨[], by simp [List.intercalate], .inl rfl⟩
    | cons d rest =>
      exact ⟨'/' :: ['/'].intercalate (d :: rest), by simp [List.intercalate], .inr ⟨_, rfl⟩⟩
  obtain ⟨tail, htail, hcase⟩ := hform
  obtain ⟨x, c, rfl⟩ := List.exists_cons_of_ne_nil hne
  have hhead : (x :: c ++ tail).head? ≠ some '/' := by
    intro h
    exact hs (by simp [Option.some.inj h])
  rw [htail, pathFront, if_neg hhead, if_neg]
  rcases hcase with rfl | ⟨more, rfl⟩
  · rw [List.append_nil]
    rintro (h | h)
    · exact hdot h
    · exact hs (h.subset (by simp))
  · rintro (h | h)
    · rcases c with - | ⟨y, c⟩ <;> simp at h
    · exact not_prefix_dot hc hs h

/-- And no other front and components. -/
theorem Behind.unique {front : List Char} {body : List (List Char)} (h : Behind front body) :
    pathFront (front ++ ['/'].intercalate body) = front ∧
      pathBody (front ++ ['/'].intercalate body) = body := by
  have hsplit : (['/'].intercalate body).splitOn '/' = body :=
    List.splitOn_intercalate '/' h.slash.2 h.slash.1
  have hfront : pathFront (front ++ ['/'].intercalate body) = front := by
    cases h with
    | root => rfl
    | @dot rest =>
      cases rest with
      | nil => rfl
      | cons c rest => simp [List.intercalate, pathFront]
    | empty => rfl
    | relative hc hslash => exact pathFront_relative hc (hslash _ List.mem_cons_self)
  refine ⟨hfront, ?_⟩
  rw [pathBody, hfront, List.drop_left, hsplit]

/-- The components that name the directory of a file. -/
def dirBody (path : List Char) : List (List Char) :=
  ((pathBody path).rdropWhile idle).dropLast.rdropWhile idle

/-- A path that has a file name, by its components. -/
lemma fileName_eq_some {path name : List Char} : fileName path = some name ↔
    name ≠ ['.', '.'] ∧ ∃ init, (pathBody path).rdropWhile idle = init ++ [name] := by
  rw [fileName, Option.filter_eq_some_iff, List.getLast?_eq_some_iff]
  simp [and_comm]

/-- A file name stands for itself. -/
theorem plainName_fileName {path name : List Char} (h : fileName path = some name) :
    PlainName name := by
  obtain ⟨hup, init, hinit⟩ := fileName_eq_some.mp h
  have hmem : name ∈ (pathBody path).rdropWhile idle := by simp [hinit]
  have hne : (pathBody path).rdropWhile idle ≠ [] := List.ne_nil_of_mem hmem
  have hbody := (List.rdropWhile_prefix idle (pathBody path)).subset hmem
  refine ⟨?_, hup, (behind_pathBody path).1.slash.2 name hbody⟩
  have hlast := List.rdropWhile_last_not idle (pathBody path) hne
  simpa [hinit] using hlast

lemma PlainName.head {name : List Char} (h : PlainName name) : name.head? ≠ some '/' :=
  fun hhead => h.slash (List.mem_of_head? hhead)

lemma PlainName.ne_nil {name : List Char} (h : PlainName name) : name ≠ [] :=
  (active_iff.mp h.active).1

/-- Components that end in a name do not end in a separator. -/
lemma getLast_intercalate (init : List (List Char)) {last : List Char} (hne : last ≠ [])
    (hs : '/' ∉ last) (front : List Char) :
    front ++ ['/'].intercalate (init ++ [last]) ≠ [] ∧
      (front ++ ['/'].intercalate (init ++ [last])).getLast? ≠ some '/' := by
  obtain ⟨pre, hpre⟩ : ∃ pre, front ++ ['/'].intercalate (init ++ [last]) = pre ++ last := by
    by_cases hinit : init = []
    · exact ⟨front, by simp [hinit, List.intercalate]⟩
    · exact ⟨front ++ ['/'].intercalate init ++ ['/'], by
        rw [intercalate_concat hinit]; simp⟩
  rw [hpre, List.getLast?_append_of_ne_nil _ hne]
  exact ⟨by simp [hne], fun h => hs (List.mem_of_getLast? h)⟩

/-- The components of a directory can be behind a front, also with more behind them. -/
theorem Behind.of_prefix {front : List Char} {body init : List (List Char)} {last : List Char}
    (h : Behind front body) (hpre : init ++ [last] <+: body) (hlast : idle last = false)
    {more : List (List Char)} (hmore : ∀ c ∈ more, '/' ∉ c) :
    Behind front (init ++ [last] ++ more) := by
  have hslash : ∀ c ∈ init ++ [last] ++ more, '/' ∉ c := by
    intro c hc
    rcases List.mem_append.mp hc with hc | hc
    · exact h.slash.2 c (hpre.subset hc)
    · exact hmore c hc
  obtain ⟨rest, hrest⟩ := hpre
  obtain ⟨c, cs, hcs⟩ : ∃ c cs, init ++ [last] = c :: cs := List.exists_cons_of_ne_nil (by simp)
  rw [hcs] at hrest hslash ⊢
  cases h with
  | root => exact .root (by simp) hslash
  | dot =>
    obtain ⟨rfl, _⟩ := List.cons.inj hrest
    exact .dot fun x hx => hslash x (List.mem_cons_of_mem _ hx)
  | empty =>
    -- the empty path has no active component
    obtain ⟨rfl, hnil⟩ := List.cons.inj hrest
    obtain ⟨rfl, _⟩ := List.append_eq_nil_iff.mp hnil
    obtain ⟨_, rfl⟩ : init = [] ∧ last = [] := by
      simpa [List.append_eq_singleton_iff] using hcs
    cases hlast
  | relative hc =>
    obtain ⟨rfl, _⟩ := List.cons.inj hrest
    exact .relative hc hslash

/-- A name joined to a directory follows the components of the directory. -/
theorem Behind.join {front : List Char} {body dir : List (List Char)} {name : List Char}
    (h : Behind front body) (hpre : dir <+: body) (hdir : dir.rdropWhile idle = dir)
    (hn : PlainName name) : ∃ pad, (∀ c ∈ pad, idle c = true) ∧
      Behind front (dir ++ pad ++ [name]) ∧
      joinPath (front ++ ['/'].intercalate dir) name =
        front ++ ['/'].intercalate (dir ++ pad ++ [name]) := by
  have hhead := hn.head
  have hname : ∀ c ∈ [name], '/' ∉ c := by simpa using hn.slash
  rcases List.eq_nil_or_concat' dir with rfl | ⟨init, last, rfl⟩
  · cases h with
    | root =>
      exact ⟨[], by simp, .root (by simp) hname, by simp [joinPath, hhead, List.intercalate]⟩
    | dot => exact ⟨[[]], by simp [idle], .dot hname, by simp [joinPath, hhead, List.intercalate]⟩
    | empty | relative =>
      exact ⟨[], by simp, .relative hn.active hname, by simp [joinPath, hhead, List.intercalate]⟩
  · have hlast : idle last = false := by
      have hself := List.rdropWhile_eq_self_iff.mp hdir (by simp)
      simpa using hself
    have hbehind := h.of_prefix hpre hlast hname
    obtain ⟨hne, hsep⟩ := getLast_intercalate init (active_iff.mp hlast).1
      (hbehind.slash.2 last (by simp)) front
    have hfull : init ++ [last] ≠ [] := by simp
    refine ⟨[], by simp, by simpa using hbehind, ?_⟩
    rw [joinPath, if_neg hhead, if_neg (by simp only [not_or]; exact ⟨hne, hsep⟩),
      List.append_nil, intercalate_concat hfull, List.append_assoc]

lemma dirBody_isPrefix (path : List Char) : dirBody path <+: pathBody path :=
  (List.rdropWhile_prefix _ _).trans ((List.dropLast_prefix _).trans (List.rdropWhile_prefix _ _))

lemma rdropWhile_append_idle {cs pad : List (List Char)} (h : ∀ c ∈ pad, idle c = true) :
    (cs ++ pad).rdropWhile idle = cs.rdropWhile idle := by
  induction pad using List.reverseRecOn with
  | nil => rw [List.append_nil]
  | append_singleton pad c ih =>
    rw [← List.append_assoc, List.rdropWhile_concat_pos _ _ _ (h c (by simp))]
    exact ih fun x hx => h x (by simp [hx])

/-- A path with another name in its directory has that name, and the same directory. -/
theorem fileName_setFileName {path old name : List Char} (hp : fileName path = some old)
    (hn : PlainName name) : fileName (setFileName path name) = some name ∧
      parentPath (setFileName path name) = parentPath path := by
  obtain ⟨pad, hpad, hbehind, hjoin⟩ := (behind_pathBody path).1.join (dirBody_isPrefix path)
    (List.rdropWhile_idempotent _ _) hn
  have hset : setFileName path name =
      pathFront path ++ ['/'].intercalate (dirBody path ++ pad ++ [name]) := by
    rw [setFileName, hp, Option.isSome_some, if_pos rfl, ← hjoin]
    rfl
  obtain ⟨hfront, hbody⟩ := hbehind.unique
  have hactive : ¬ idle name = true := by simp [hn.active]
  have hdrop : (pathBody (setFileName path name)).rdropWhile idle =
      dirBody path ++ pad ++ [name] := by
    rw [hset, hbody, List.rdropWhile_concat_neg _ _ _ hactive]
  constructor
  · exact fileName_eq_some.mpr ⟨hn.ne_up, _, hdrop⟩
  · have hidle : (dirBody path ++ pad).rdropWhile idle = dirBody path := by
      rw [rdropWhile_append_idle hpad]
      exact List.rdropWhile_idempotent _ _
    rw [parentPath, hdrop, List.dropLast_concat, hidle, hset, hfront]
    rfl

end Components

section Places

lemma step_of_idle (p : Place) {c : List Char} (h : idle c = true) : p.step c = p :=
  if_pos (by simpa [idle] using h)

/-- Idle components at the end of a path change nothing. -/
lemma foldl_step_rdropWhile (p : Place) (cs : List (List Char)) :
    (cs.rdropWhile idle).foldl Place.step p = cs.foldl Place.step p := by
  induction cs using List.reverseRecOn with
  | nil => rfl
  | append_singleton cs c ih =>
    by_cases hc : idle c = true
    · rw [List.rdropWhile_concat_pos _ _ _ hc, ih, List.foldl_append, List.foldl_cons,
        List.foldl_nil, step_of_idle _ hc]
    · rw [List.rdropWhile_concat_neg _ _ _ hc]

/-- Where a path leads, by its components. -/
theorem resolve_eq_foldl {front : List Char} {body : List (List Char)} (h : Behind front body) :
    resolve (front ++ ['/'].intercalate body) =
      body.foldl Place.step ⟨front = ['/'], 0, []⟩ := by
  have hsplit : (['/'].intercalate body).splitOn '/' = body :=
    List.splitOn_intercalate '/' h.slash.2 h.slash.1
  rw [resolve, Place.follow]
  cases h with
  | root =>
    rw [List.singleton_append, SeparatedPath.splitOn_cons_sep, hsplit, List.foldl_cons,
      step_of_idle _ rfl]
    rfl
  | dot =>
    rw [List.singleton_append, List.splitOn_cons_eq_if_modifyHead, if_neg (by simp), hsplit,
      List.modifyHead_cons, List.foldl_cons, List.foldl_cons, step_of_idle _ rfl,
      step_of_idle _ rfl]
    rfl
  | empty => rfl
  | @relative c rest hc hslash =>
    obtain ⟨x, c, rfl⟩ := List.exists_cons_of_ne_nil (active_iff.mp hc).1
    have hx : x ≠ '/' := fun h => hslash (x :: c) List.mem_cons_self (h ▸ List.mem_cons_self)
    have hhead : (['/'].intercalate ((x :: c) :: rest)).head? = some x := by
      cases rest <;> simp [List.intercalate]
    rw [List.nil_append, hsplit, hhead]
    simp [hx]

/-- The directory of a file leads where the components before its name lead. -/
theorem resolve_parentPath (path : List Char) : resolve (parentPath path) =
    (dirBody path).foldl Place.step ⟨pathFront path = ['/'], 0, []⟩ := by
  change resolve (pathFront path ++ ['/'].intercalate (dirBody path)) = _
  have hbehind := (behind_pathBody path).1
  have hself : (dirBody path).rdropWhile idle = dirBody path := List.rdropWhile_idempotent _ _
  have hpre := dirBody_isPrefix path
  rcases List.eq_nil_or_concat' (dirBody path) with hnil | ⟨init, last, hdir⟩
  · rw [hnil]
    generalize pathFront path = front, pathBody path = body at hbehind
    cases hbehind <;> rfl
  · rw [hdir] at hself hpre ⊢
    have hlast : idle last = false := by
      have hne := List.rdropWhile_eq_self_iff.mp hself (by simp)
      simpa using hne
    have hfull : Behind (pathFront path) (init ++ [last] ++ []) :=
      hbehind.of_prefix hpre hlast (by simp)
    rw [List.append_nil] at hfull
    exact resolve_eq_foldl hfull

lemma follow_of_slash (p : Place) {name : List Char} (h : '/' ∉ name) :
    p.follow name = p.step name := by
  rw [Place.follow, List.splitOn_eq_singleton h]
  rfl

/-- A file lies in its directory, under its name. -/
theorem resolve_eq_step {path name : List Char} (h : fileName path = some name) :
    resolve path = (resolve (parentPath path)).step name := by
  obtain ⟨-, init, hinit⟩ := fileName_eq_some.mp h
  obtain ⟨hbehind, hpath⟩ := behind_pathBody path
  have hdir : dirBody path = init.rdropWhile idle := by
    rw [dirBody, hinit, List.dropLast_concat]
  rw [resolve_parentPath, hdir, foldl_step_rdropWhile]
  conv_lhs => rw [hpath, resolve_eq_foldl hbehind, ← foldl_step_rdropWhile, hinit]
  rw [List.foldl_append, List.foldl_cons, List.foldl_nil]

/-- Another name leads to that name in the directory. -/
theorem resolve_setFileName {path old name : List Char} (h : fileName path = some old)
    (hs : '/' ∉ name) :
    resolve (setFileName path name) = (resolve (parentPath path)).step name := by
  have hhead : name.head? ≠ some '/' := fun hhead => hs (List.mem_of_head? hhead)
  rw [setFileName, h, Option.isSome_some, if_pos rfl, resolve_joinPath _ hhead,
    follow_of_slash _ hs]

/-- Only one component leads from a place to a name below it. -/
theorem step_inj (p : Place) {name other : List Char} (hn : PlainName name)
    (h : p.step other = p.step name) : other = name := by
  have hidle := active_iff.mp hn.active
  have hname : p.step name = { p with names := p.names ++ [name] } := by
    rw [Place.step, if_neg (by simp [hidle]), if_neg hn.ne_up]
  rw [hname, Place.step] at h
  have hnames := congrArg Place.names h
  split_ifs at hnames with hstay hup hnil habs
  · simp at hnames
  · simp at hnames
  · simp at hnames
  · have hlength := congrArg List.length hnames
    simp only [List.length_dropLast, List.length_append, List.length_singleton] at hlength
    omega
  · exact List.singleton_inj.mp (List.append_cancel_left hnames)

end Places

section Outputs

/-- The name of a file, and nothing where there is none. Paths are Unicode text here, of which
`to_string_lossy` loses nothing. -/
def nameOrEmpty (file : List Char) : List Char := (fileName file).getD []

/-- Where `encrypt` writes when it is not told. -/
def encryptedPath (file : List Char) : List Char :=
  setFileName file (nameOrEmpty file ++ ['.', 'r', 'o', 'k'])

/-- Where `sign` writes when it is not told. -/
def signaturePath (file : List Char) : List Char :=
  setFileName file (nameOrEmpty file ++ ['.', 's', 'i', 'g'])

/-- Where `decrypt` writes when it is not told. -/
def decryptedPath (file : List Char) : List Char :=
  match (nameOrEmpty file).dropSuffix? ['.', 'r', 'o', 'k'] with
  | some stripped => setFileName file stripped
  | none => setFileName file (nameOrEmpty file ++ ['.', 'd', 'e', 'c'])

lemma dropSuffix_append (name suffix : List Char) :
    (name ++ suffix).dropSuffix? suffix = some name :=
  List.dropSuffix?_eq_some_iff.mpr ⟨suffix, rfl, beq_self_eq_true _⟩

/-- A name with an extension is a name. -/
lemma PlainName.extension {name ext : List Char} (h : PlainName name) (hext : 2 ≤ ext.length)
    (hs : '/' ∉ ext) : PlainName (name ++ ext) := by
  have hlength : 3 ≤ (name ++ ext).length := by
    have hpos := List.length_pos_iff.mpr h.ne_nil
    rw [List.length_append]
    omega
  refine ⟨active_iff.mpr ⟨?_, ?_⟩, ?_, by simp [h.slash, hs]⟩ <;>
    · intro heq
      rw [heq] at hlength
      simp at hlength

/-- The name that `decrypt` gives to its output is not that of its input. -/
lemma exists_decryptedPath {file name : List Char} (h : fileName file = some name) :
    ∃ other, other ≠ name ∧ '/' ∉ other ∧ decryptedPath file = setFileName file other := by
  have hplain := plainName_fileName h
  have hname : nameOrEmpty file = name := by rw [nameOrEmpty, h, Option.getD_some]
  rw [decryptedPath, hname]
  cases hstrip : name.dropSuffix? ['.', 'r', 'o', 'k'] with
  | some stripped =>
    obtain ⟨suffix, rfl, hsuffix⟩ := List.dropSuffix?_eq_some_iff.mp hstrip
    obtain rfl := eq_of_beq hsuffix
    exact ⟨stripped, by simp, fun hs => hplain.slash (by simp [hs]), rfl⟩
  | none => exact ⟨name ++ ['.', 'd', 'e', 'c'], by simp, by simp [hplain.slash], rfl⟩

/-- Without being told where, `encrypt` and `sign` write in the directory of their input, and no
command writes over its input. Decrypting what was encrypted leads back to the original file. -/
theorem output_paths {file name : List Char} (h : fileName file = some name) :
    resolve (encryptedPath file) ≠ resolve file ∧
    resolve (signaturePath file) ≠ resolve file ∧
    resolve (decryptedPath file) ≠ resolve file ∧
    parentPath (encryptedPath file) = parentPath file ∧
    parentPath (signaturePath file) = parentPath file ∧
    decryptedPath (encryptedPath file) = setFileName file name ∧
    resolve (decryptedPath (encryptedPath file)) = resolve file := by
  have hplain := plainName_fileName h
  have hname : nameOrEmpty file = name := by rw [nameOrEmpty, h, Option.getD_some]
  have hne : ∀ other, other ≠ name → '/' ∉ other →
      resolve (setFileName file other) ≠ resolve file := by
    intro other hother hs heq
    rw [resolve_setFileName h hs, resolve_eq_step h] at heq
    exact hother (step_inj _ hplain heq)
  have hrok : PlainName (name ++ ['.', 'r', 'o', 'k']) := hplain.extension (by simp) (by simp)
  have hsig : PlainName (name ++ ['.', 's', 'i', 'g']) := hplain.extension (by simp) (by simp)
  obtain ⟨hsame, hdir⟩ := fileName_setFileName h hrok
  have hback : decryptedPath (encryptedPath file) = setFileName file name := by
    rw [decryptedPath, encryptedPath, nameOrEmpty, hname, hsame, Option.getD_some,
      dropSuffix_append]
    change setFileName _ name = _
    rw [setFileName, hsame, Option.isSome_some, if_pos rfl, hdir, setFileName, h,
      Option.isSome_some, if_pos rfl]
  refine ⟨?_, ?_, ?_, ?_, ?_, hback, ?_⟩
  · rw [encryptedPath, hname]
    exact hne _ (by simp) hrok.slash
  · rw [signaturePath, hname]
    exact hne _ (by simp) hsig.slash
  · obtain ⟨other, hother, hs, heq⟩ := exists_decryptedPath h
    rw [heq]
    exact hne other hother hs
  · rw [encryptedPath, hname]
    exact hdir
  · rw [signaturePath, hname]
    exact (fileName_setFileName h hsig).2
  · rw [hback, resolve_setFileName h hplain.slash, resolve_eq_step h]

theorem output_paths_notes : fileName ['.', '/', 'd', '/', '.', '/', 'a', '/'] = some ['a'] ∧
    resolve (decryptedPath (encryptedPath ['.', '/', 'd', '/', '.', '/', 'a', '/'])) =
      resolve ['.', '/', 'd', '/', '.', '/', 'a', '/'] :=
  ⟨by decide, (output_paths (by decide : fileName _ = some ['a'])).2.2.2.2.2.2⟩

end Outputs

end ReadOnlyKeys
