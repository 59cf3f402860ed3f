import Mathlib.Data.List.Infix
import RazionOS.Kernel.Vfs.Canonicalize

/-!
# `realpath`

The library edits one flat string where the kernel keeps a stack of names: a name is appended with
`strcat`, and `..` cuts the string at its last slash.
-/

namespace RazionOS.Libc.Realpath
open Framework Kernel Kernel.Vfs LinkedList List

def pathMax : Nat := 4096

/-- A string in an array of `PATH_MAX+1` bytes. -/
def inArray (s : CString) : Except Fault CString :=
  if s.length≤pathMax then .ok s else .error .badPointer

def appendDir (out element : CString) : Except Fault CString :=
  inArray (out++pathSeparator::element)

def removeLast (out : CString) : CString :=
  if pathSeparator∈out then ((out.reverse.dropWhile (· != pathSeparator)).drop 1).reverse
  else out

def resolveToken (out tok : CString) : Except Fault CString :=
  if tok=pathDot then .ok out
  else if tok=pathUp then .ok (removeLast out)
  else appendDir out tok

/-- `sys_getcwd` fails with `ERANGE` if the terminator does not fit either. -/
def getcwd (wdName : CString) (size : Nat) : Option CString :=
  if size<wdName.length+1 then none else some wdName

/-- The result is `none` where the function returns `NULL`. -/
def realpath (wdName : CString) (path : Option CString) : Except Fault (Option CString) := do
  let some path := path | return none
  let workingPath ← inArray path
  let start := if workingPath.headD 0=pathSeparator then some [] else getcwd wdName pathMax
  let some cwd := start | return none
  let resolvedPath ← (tokens cwd).foldlM appendDir []
  let resolvedPath ← (tokens workingPath).foldlM resolveToken resolvedPath
  return some (if resolvedPath=[] then [pathSeparator] else resolvedPath)

def flat (names : List CString) : CString := names.flatMap (pathSeparator :: ·)

/-- The names that the path is read on top of. -/
def base (cwd path : CString) : List CString :=
  if path.head? = some pathSeparator then [] else tokens cwd

/-- The arguments and all intermediate results fit in `PATH_MAX`. -/
structure Fits (cwd path : CString) : Prop where
  path_le : path.length≤pathMax
  cwd_lt : path.head? ≠ some pathSeparator → cwd.length<pathMax
  results_le : ∀ toks∈(tokens path).inits, (flat (toks.foldl push (base cwd path))).length≤pathMax

variable {names toks : List CString}

theorem flat_concat : flat (names++[w])=flat names++pathSeparator::w := by simp [flat]

private theorem length_flat_le {names all : List CString} (h : names <+: all) :
    (flat names).length≤(flat all).length := by
  obtain ⟨rest,rfl⟩ := h
  simp [flat]

private theorem removeLast_flat (hn : ∀ w∈names, IsName w) :
    removeLast (flat names)=flat names.dropLast := by
  cases names using reverseRecOn with
  | nil => rfl
  | append_singleton names w =>
    have hw := (hn w (by simp)).noSeparator
    -- Seen from the end, the last name goes up to its own separator.
    have hr : ∀ c∈w.reverse, (c != pathSeparator)=true := by
      intro c hc
      simpa using fun heq : c=pathSeparator => hw (heq ▸ mem_reverse.1 hc)
    rw [flat_concat,removeLast,reverse_append,reverse_cons,append_assoc, dropWhile_append_of_pos hr]
    simp

private theorem resolveToken_flat (hn : ∀ w∈names, IsName w)
    (hf : (flat (push names tok)).length≤pathMax) :
    resolveToken (flat names) tok = .ok (flat (push names tok)) := by
  rw [push] at hf ⊢
  rw [resolveToken]
  by_cases hup : tok=pathUp
  · rw [if_neg (by simp [hup, pathUp, pathDot]),if_pos hup,if_pos hup,removeLast_flat hn]
  by_cases hd : tok=pathDot
  · rw [if_pos hd,if_neg hup,if_pos hd]
  rw [if_neg hup,if_neg hd,flat_concat] at hf
  rw [if_neg hd,if_neg hup,if_neg hup,if_neg hd,flat_concat,appendDir,inArray,if_pos hf]

private theorem foldlM_appendDir (hf : (flat (names++toks)).length≤pathMax) :
    toks.foldlM appendDir (flat names) = .ok (flat (names++toks)) := by
  induction toks generalizing names with
  | nil => simp
  | cons tok toks ih =>
    rw [append_cons] at hf ⊢
    have hfi := (length_flat_le (prefix_append _ toks)).trans hf
    rw [flat_concat] at hfi
    rw [foldlM_cons,appendDir,inArray,if_pos hfi,← flat_concat]
    exact ih hf

private theorem foldlM_resolveToken (hn : ∀ w∈names, IsName w) (ht : ∀ w∈toks, IsName w)
    (hf : ∀ done∈toks.inits, (flat (done.foldl push names)).length≤pathMax) :
    toks.foldlM resolveToken (flat names) = .ok (flat (toks.foldl push names)) := by
  induction toks generalizing names with
  | nil => rfl
  | cons tok toks ih =>
    have hto : ∀ w∈[tok], w≠pathUp → w≠pathDot → IsName w :=
      fun w hw _ _ => ht w (by simp_all)
    have hp := foldl_push_forall hto hn
    rw [foldlM_cons,resolveToken_flat hn (hf [tok] (by simp))]
    exact ih hp (fun w hw => ht w (mem_cons_of_mem tok hw)) fun done hd =>
      hf (tok::done) (by simpa using hd)

/-- The library and the kernel give a path the same name. -/
theorem realpath_eq_canonicalizePath (malloc : Bytes.Malloc) (junk : Nat → UInt8)
    (work : Bytes.Work) {cwd path : CString} (hcwd : 0 ∉ cwd) (hpath : 0 ∉ path)
    (hne : path ≠ []) (hfits : Fits cwd path) : ∃ out, realpath cwd (some path) = .ok (some out) ∧
      Bytes.canonicalizePath malloc junk work cwd path = .ok out := by
  refine ⟨_,?_,Bytes.canonicalizePath_eq malloc junk work hcwd hpath⟩
  have hn : Vfs.names cwd path=(tokens path).foldl push (base cwd path) := by
    by_cases ha : path.head? = some pathSeparator
    · rw [Vfs.names,base,if_neg (by simp [ha]),if_pos ha]
    · rw [Vfs.names,base,if_pos ⟨hne,ha⟩,if_neg ha]
  obtain ⟨start,hst,ht⟩ : ∃ start, (if path.headD 0=pathSeparator then some []
      else getcwd cwd pathMax)=some start ∧ tokens start=base cwd path := by
    have hh : path.headD 0=pathSeparator ↔ path.head? = some pathSeparator := by
      cases path <;> simp_all
    rw [base]
    by_cases ha : path.head? = some pathSeparator
    · exact ⟨[],by rw [if_pos (hh.2 ha)],by rw [if_pos ha]; rfl⟩
    · have hr := hfits.cwd_lt ha
      exact ⟨cwd,by rw [if_neg (hh.not.2 ha),getcwd,if_neg (by omega)],by rw [if_neg ha]⟩
  have hb := ht ▸ tokens_isName
  have hf : (base cwd path).foldlM appendDir [] = .ok (flat (base cwd path)) :=
    @foldlM_appendDir [] _ (hfits.results_le [] (by simp))
  have hs := foldlM_resolveToken hb tokens_isName hfits.results_le
  have he : flat (Vfs.names cwd path)=[] ↔ Vfs.names cwd path=[] := by
    cases Vfs.names cwd path <;> simp [flat]
  rw [← hn] at hs
  simp only [realpath,inArray,if_pos hfits.path_le,ok_bind,hst,ht,hf,hs,he]
  rfl

/-- The path `../c/./d` in a directory whose own name has a `..`. -/
theorem realpath_relative : ∃ out, realpath (cString "/a//../b/") (some (cString "../c/./d")) =
    .ok (some out) ∧ Bytes.canonicalizePath Bytes.bumpMalloc (fun _ => 255) Bytes.emptyWork
      (cString "/a//../b/") (cString "../c/./d") = .ok out :=
  realpath_eq_canonicalizePath _ _ _ (by decide) (by decide) (by decide)
    ⟨by decide,fun _ => by decide,by decide⟩
end RazionOS.Libc.Realpath
