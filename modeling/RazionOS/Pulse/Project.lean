import RazionOS.Pulse.Broker

/-! # The creation of a project -/

namespace RazionOS.Pulse
open Framework Function List

inductive Node where
  | dir
  | file (content : CString)

abbrev Tree := List CString → Option Node

/-- The names on a path. -/
def components (path : CString) : List CString := (path.splitOnP (· == 47)).filter (· ≠ [])
def IsTree (t : Tree) : Prop := ∀ path name, t (path++[name])≠none → t path=some .dir

/-- A node is made where there was none, or the call fails and nothing changes. -/
def Makes (t t' : Tree) (path : CString) (node : Node) (ok : Prop) : Prop :=
  ok ∧ t (components path)=none ∧ t' = update t (components path) (some node) ∨ ¬ok ∧ t' = t

/-- The calls are on a tree of files. They may fail, but for the removals. -/
structure Works {σ : Type} (sys : System σ) (tree : σ → Tree) : Prop where
  stat : ∀ path s, tree (sys.stat path s).2=tree s
  mkdir : ∀ path mode s, Makes (tree s) (tree (sys.mkdir path mode s).2) path .dir
    ((sys.mkdir path mode s).1=0)
  create : ∀ path mode s, Makes (tree s) (tree (sys.create path mode s).2) path (.file [])
    ((sys.create path mode s).1=true)
  write : ∀ path text s old, tree s (components path)=some (.file old) → ∃ new,
    tree (sys.write path text s).2=update (tree s) (components path) (some (.file new)) ∧
      ((sys.write path text s).1=text.length → new=old++text)
  unlink : ∀ path s content, tree s (components path)=some (.file content) →
    tree (sys.unlink path s)=update (tree s) (components path) none
  rmdir : ∀ path s, tree s (components path)=some .dir →
    (∀ name, tree s (components path++[name])=none) →
      tree (sys.rmdir path s)=update (tree s) (components path) none

variable {sys : System σ}

private theorem homeTarget_eq (h : ∀ home∈sys.home, home.length+32 < maxTarget) :
    ∃ base, ∀ suffix : CString, suffix.length≤32 →
      homeTarget sys.home suffix=base++suffix := by
  have ht : ∀ base suffix : CString, base.length+32 < maxTarget → suffix.length≤32 →
      truncate maxTarget _=base++suffix := fun base suffix hb hs =>
    take_of_length_le (by simp [maxTarget] at hb ⊢; omega)
  rcases hh : sys.home with _ | _ | ⟨c,home⟩
  · exact ⟨_,fun suffix => ht _ suffix (by decide)⟩
  · exact ⟨_,fun suffix => ht _ suffix (by decide)⟩
  · exact ⟨_,fun suffix => ht _ suffix (h _ hh)⟩

private theorem components_mainFile :
    components (path++47::cString "main.py")=components path++[cString "main.py"] := by
  rw [components,splitOnP_append_cons _ _ (by decide),filter_append]
  congr 1

/-- The project is new and complete, or everything is as it was. -/
def Created (t : Tree) (project : List CString) (status : Status) (t' : Tree) : Prop :=
  let mainFile := project++[cString "main.py"]
  if status = .ok then
    t project=none ∧ t mainFile=none ∧
      t' = update (update t project (some .dir)) mainFile (some (.file starter))
  else t' = t

/-- What the status and the state after a call have to do with each other. -/
def Leaves (m : StateM (World σ) Outcome) (s : σ) (Q : Status → σ → Prop) : Prop :=
  ∀ trace, Q (m ⟨s,trace⟩).1.1 (m ⟨s,trace⟩).2.env

private theorem Leaves.call (e : Effect) (h : Leaves (k (f s).1) (f s).2 Q) :
    Leaves (Framework.call e f >>= k) s Q :=
  fun _ => h _

theorem createPythonProject_atomic (h : Works sys tree)
    (hhome : ∀ home ∈ sys.home, home.length+32 < maxTarget) (w : World σ)
    (ht : IsTree (tree w.env)) :
    Created (tree w.env) (components (homeTarget sys.home (cString "/Projects/python-project")))
      (createPythonProject sys w).1.1 (tree (createPythonProject sys w).2.env) := by
  obtain ⟨base,hba⟩ := homeTarget_eq hhome
  have hma : components (homeTarget sys.home (cString "/Projects/python-project/main.py")) =
      components (homeTarget sys.home (cString "/Projects/python-project")) ++
        [cString "main.py"] := by
    rw [hba _ (by decide),hba _ (by decide),← components_mainFile,append_assoc]
    rfl
  suffices hl : Leaves (createPythonProject sys) w.env fun status s => Created (tree w.env)
      (components (homeTarget sys.home (cString "/Projects/python-project"))) status (tree s) from
    hl w.trace
  rw [createPythonProject]
  generalize homeTarget sys.home (cString "/Projects/python-project/main.py")=mainFile at *
  generalize homeTarget sys.home (cString "/Projects/python-project")=project at *
  refine .call _ ?_
  split
  · exact fun _ => h.stat _ _
  refine .call _ ?_
  split
  · exact fun _ => (h.stat _ _).trans (h.stat _ _)
  refine .call _ ?_
  generalize hs : (sys.stat project _).2=s
  have hsa := hs ▸ (h.stat _ _).trans (h.stat _ _)
  rw [← hsa] at ht ⊢
  obtain ⟨hr,hn,hm⟩ | ⟨hr,hm⟩ := h.mkdir project 0o755 s
  case inr =>
    rw [if_pos hr]
    exact fun _ => hm
  rw [if_neg (not_not.2 hr)]
  have he : ∀ name, tree s (components project++[name])=none := fun name => by
    by_contra hne
    simpa [hn] using ht _ name hne
  have hb : ∀ s', tree s' = update (tree s) (components project) (some .dir) →
      tree (sys.rmdir project s')=tree s := fun s' hs' => by
    rw [h.rmdir project s' (by simp [hs']) (fun name => by simp [hs', he]),hs',update_idem,
      update_eq_self_iff,hn]
  have hot : update (tree s) (components project) (some .dir) (components mainFile)=none := by
    simp [hma,he]
  refine .call _ ?_
  generalize (sys.mkdir project 0o755 s).2=s1 at hm
  obtain ⟨hop,-,ho⟩ | ⟨hop,ho⟩ := h.create mainFile 0o644 s1
  case inr =>
    rw [if_pos (by simpa using hop)]
    exact .call _ fun _ => hb _ (ho.trans hm)
  rw [if_neg (by simpa using hop),hm] at *
  obtain ⟨new,hw,ha⟩ := h.write mainFile starter _ [] (by rw [ho,update_self])
  rw [ho,update_idem] at hw
  refine .call _ ?_
  split
  · refine .call _ (.call _ fun _ => hb _ ?_)
    rw [h.unlink mainFile _ new (by rw [hw, update_self]),hw,update_idem,update_eq_self_iff,hot]
  next hf =>
    rw [ha (not_not.1 hf),hma] at hw
    exact fun _ => ⟨hn,he _,hw⟩

/-- A system in which nothing fails. -/
def files (home : CString) : System Tree where
  home := some home
  access _ s := (true, s)
  fork _ _ s := (true, s)
  stat path s := ((s (components path)).map fun node => node matches .dir, s)
  read _ s := (none, s)
  mkdir path _ s :=
    if (s (components path)).isNone then (0, update s (components path) (some .dir))
    else (eExist, s)
  create path _ s :=
    if (s (components path)).isNone then (true, update s (components path) (some (.file [])))
    else (false, s)
  write path text s :=
    match s (components path) with
    | some (.file old) => (text.length, update s (components path) (some (.file (old++text))))
    | _ => (-1, s)
  unlink path s := update s (components path) none
  rmdir path s := update s (components path) none
  openLog _ s := (true, s)
  append _ _ s := s
  time s := (0, s)
  strerror _ := []

private theorem files_works (home : CString) : Works (files home) id where
  stat _ _ := rfl
  mkdir path mode s := by
    cases hs : s (components path) <;> simp [Makes,files,hs,eExist]
  create path mode s := by
    cases hs : s (components path) <;> simp [Makes,files,hs]
  write path text s old hs := ⟨old++text,by simp_all [files],fun _ => rfl⟩
  unlink _ _ _ _ := rfl
  rmdir _ _ _ _ := rfl

def onlyProjects : Tree := fun path =>
  if path=[] ∨ path=[cString "Projects"] then some .dir else none

theorem createPythonProject_atomic_ok :
    let w : World Tree := ⟨onlyProjects,[]⟩
    let r := createPythonProject (files (cString "/")) w
    r.1.1 = .ok ∧ Created onlyProjects (components (cString "//Projects/python-project")) r.1.1
      r.2.env := by
  have ht : IsTree onlyProjects := fun path name => by cases path <;> simp [onlyProjects]
  have hh : ∀ home∈(files (cString "/")).home, home.length+32 < maxTarget := by decide
  exact ⟨by decide +kernel,createPythonProject_atomic (files_works _) hh _ ht⟩
end RazionOS.Pulse
