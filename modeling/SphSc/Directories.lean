import Mathlib.Data.List.DropRight
import SphSc.Lib.CStrings
import SphSc.Lib.Runs
/-!
# `filesystem.h`

`ensure_directory_structure` calls itself for the parent of a path, and other
processes create directories between its calls. A state has the calls that wait
for their parent, and a step is a stretch of code with one call of the file
system in it. `errno` is what the last call that failed has set, unless a call
that succeeded has changed it since, which it may.

`dirname_2` returns what `dirname` does, which may be a pointer to memory of
`dirname`'s own. The process is aborted where `free` is given that.
-/
open Exec Runs

namespace SphSc.Directories

/-- The text of a string. -/
abbrev Path := List Byte

/-- Values of `errno`. -/
inductive Errno where
  | eexist
  | enoent
  | enomem
  /-- Any other value, 0 among them. -/
  | other (code : Int)
  deriving DecidableEq, Repr

def slash : Byte := 47

def dot : Byte := 46

/-- What `dirname` returns a pointer to. -/
def dirname (path : Path) : Path :=
  if path = [] then [dot]
  else if path.rdropWhile (· = slash) = [] then [slash]
  else
    let parent := (path.rdropWhile (· = slash)).rdropWhile (· ≠ slash)
    if parent = [] then [dot]
    else if parent.rdropWhile (· = slash) = [] then [slash]
    else parent.rdropWhile (· = slash)

/-- The paths of `"/usr/lib//"`, `"/usr"`, `"usr"` and `"//"`. -/
example : dirname [47, 117, 115, 114, 47, 108, 105, 98, 47, 47] = [47, 117, 115, 114] ∧
    dirname [47, 117, 115, 114] = [slash] ∧ dirname [117, 115, 114] = [dot] ∧ dirname [47, 47] = [slash] := by
  decide

/-- The string of `dirname_2`, where `string_clone` may get no memory: `dirname`
of a null pointer is `dirname` of the empty string. -/
def dirname2 (granted : Bool) (path : Path) : Path := if granted then dirname path else dirname []

/-- What is relied on of the calls, with `σ` for what is in the file system. -/
structure FileSystem (σ : Type) where
  Exists : σ → Path → Prop
  /-- `access` with `F_OK` -/
  access : σ → Path → Except Errno Unit
  mkdir : σ → Path → (mkdirMode : Nat) → Except Errno σ
  /-- Whether `dirname` returns a pointer to memory of its own for this string. -/
  static : Path → Bool
  access_exists {files path} : access files path = .ok () → Exists files path
  access_error {files path} : access files path ≠ .error .eexist
  mkdir_exists {files files' path mkdirMode} : mkdir files path mkdirMode = .ok files' → Exists files' path

/-- Whether the pointer that `dirname_2` returns is a block of `malloc`. What
`dirname` of a null pointer returns is none. -/
def FileSystem.owned {σ : Type} (fs : FileSystem σ) (granted : Bool) (path : Path) : Bool := granted && !fs.static path

/-- Where the innermost call is. -/
inductive Control where
  | calling (path : Path)
  | returned (status : Bool)
  /-- `free` was given a pointer to no block. -/
  | aborted
  deriving DecidableEq, Repr

/-- A call that waits for its parent: its path, and whether its `path_dirname` is a block. -/
structure Level where
  path : Path
  owned : Bool
  deriving DecidableEq, Repr

structure State (σ : Type) where
  files : σ
  errno : Errno
  control : Control
  /-- The calls that wait for their parent, the innermost first. -/
  levels : List Level
  /-- The errors of `mkdir`. The code keeps no such record. -/
  failed : List Errno
  deriving DecidableEq, Repr

inductive Action (σ : Type) where
  /-- Other processes create directories. -/
  | others (files : σ)
  /-- `access`, and `dirname_2` if there is no such file. -/
  | access (granted : Bool)
  /-- What follows the inner call: `free`, and `mkdir` if it comes to that. What
  calls that succeeded have set `errno` to is `changed`. -/
  | mkdir (changed : Option Errno)
  deriving DecidableEq, Repr

variable {σ : Type} (fs : FileSystem σ) (mkdirMode : Nat)

/-- The outermost call has returned, or the process is aborted. -/
def State.ended (s : State σ) : Bool :=
  match s.control with
  | .calling _ => false
  | .returned _ => s.levels.isEmpty
  | .aborted => true

/-- `ensure_directory_structure` -/
def step (s : State σ) : Action σ → Option (State σ)
  | .others files => if s.ended then none else some { s with files }
  | .access granted =>
    match s.control with
    | .calling path =>
      match fs.access s.files path with
      | .ok () => some { s with control := .returned true }
      | .error e => some { s with
          errno := if granted then e else .enomem, control := .calling (dirname2 granted path)
          levels := ⟨path, fs.owned granted path⟩ :: s.levels }
    | .returned _ | .aborted => none
  | .mkdir changed =>
    match s.control, s.levels with
    | .returned status, level :: levels =>
      let errno := changed.getD s.errno
      if !level.owned then some { s with control := .aborted }
      else if status then
        if errno = .eexist then some { s with errno, levels }
        else
          match fs.mkdir s.files level.path mkdirMode with
          | .ok files => some { s with files, errno, levels }
          | .error e => some { s with errno := e, control := .returned false, levels, failed := s.failed ++ [e] }
      else some { s with errno, levels }
    | _, _ => none

/-- A call for `path`. -/
def start (path : Path) (files : σ) (errno : Errno) : State σ := ⟨files, errno, .calling path, [], []⟩

/-- Other processes remove nothing. -/
def Keeps (s : State σ) : Action σ → Prop
  | .others files => ∀ path, fs.Exists s.files path → fs.Exists files path
  | _ => True

/-- What is wanted: a value is returned, and it is 1 only if the path exists, and
0 only if `mkdir` failed with an error other than `EEXIST`. -/
def Truthful (path : Path) (s : State σ) : Prop :=
  match s.control with
  | .returned true => fs.Exists s.files path
  | .returned false => ∃ e ∈ s.failed, e ≠ .eexist
  | _ => False

/-- Before what follows an inner call: what is freed is a block. If the call
returned 1, `errno` is `EEXIST` on the way out only if the path exists, and
`mkdir` is not called for what is there. -/
def Unraced (s : State σ) : Action σ → Prop
  | .mkdir changed => ∀ level levels, s.levels = level :: levels → level.owned = true ∧
      (s.control = .returned true →
        if changed.getD s.errno = .eexist then levels = [] → fs.Exists s.files level.path
        else fs.mkdir s.files level.path mkdirMode ≠ .error .eexist)
  | _ => True

/-! ## What a step can do -/

/-- A constructor for each branch of `step`. -/
inductive Step : State σ → Action σ → State σ → Prop
  | others {s files} : s.ended = false → Step s (.others files) { s with files }
  | found {s path granted} : s.control = .calling path → fs.access s.files path = .ok () →
      Step s (.access granted) { s with control := .returned true }
  | missing {s path granted e} : s.control = .calling path → fs.access s.files path = .error e →
      Step s (.access granted) { s with
        errno := if granted then e else .enomem, control := .calling (dirname2 granted path)
        levels := ⟨path, fs.owned granted path⟩ :: s.levels }
  | aborted {s status level levels changed} : s.control = .returned status → s.levels = level :: levels →
      level.owned = false → Step s (.mkdir changed) { s with control := .aborted }
  | parentFailed {s level levels changed} : s.control = .returned false → s.levels = level :: levels →
      level.owned = true → Step s (.mkdir changed) { s with errno := changed.getD s.errno, levels }
  | skipped {s level levels changed} : s.control = .returned true → s.levels = level :: levels → level.owned = true →
      changed.getD s.errno = .eexist → Step s (.mkdir changed) { s with errno := changed.getD s.errno, levels }
  | made {s level levels changed files} : s.control = .returned true → s.levels = level :: levels → level.owned = true →
      changed.getD s.errno ≠ .eexist → fs.mkdir s.files level.path mkdirMode = .ok files →
      Step s (.mkdir changed) { s with files, errno := changed.getD s.errno, levels }
  | failed {s level levels changed e} : s.control = .returned true → s.levels = level :: levels → level.owned = true →
      changed.getD s.errno ≠ .eexist → fs.mkdir s.files level.path mkdirMode = .error e →
      Step s (.mkdir changed) { s with errno := e, control := .returned false, levels, failed := s.failed ++ [e] }

variable {fs mkdirMode} {s s' : State σ} {a : Action σ}

theorem access_cases {granted : Bool} (h : step fs mkdirMode s (.access granted) = some s') :
    Step fs mkdirMode s (.access granted) s' := by
  simp only [step] at h
  split at h
  · rename_i path hc
    split at h
    · rename_i hf
      cases h
      exact .found hc hf
    · rename_i e hf
      cases h
      exact .missing hc hf
  · cases h
  · cases h

theorem mkdir_cases {changed : Option Errno} (h : step fs mkdirMode s (.mkdir changed) = some s') :
    Step fs mkdirMode s (.mkdir changed) s' := by
  simp only [step] at h
  split at h
  · rename_i status level levels hc hl
    cases howned : level.owned with
    | false =>
      rw [howned] at h
      cases h
      exact .aborted hc hl howned
    | true =>
      simp only [howned, Bool.not_true, Bool.false_eq_true, if_false] at h
      cases status with
      | false =>
        cases h
        exact .parentFailed hc hl howned
      | true =>
        simp only [if_true] at h
        split at h
        · rename_i he
          cases h
          exact .skipped hc hl howned he
        · rename_i he
          split at h
          · rename_i files hf
            cases h
            exact .made hc hl howned he hf
          · rename_i e hf
            cases h
            exact .failed hc hl howned he hf
  · cases h

theorem step_cases (h : step fs mkdirMode s a = some s') : Step fs mkdirMode s a s' := by
  cases a with
  | others files =>
    simp only [step] at h
    split at h
    · cases h
    · rename_i hf
      cases h
      exact .others (by simpa using hf)
  | access granted => exact access_cases h
  | mkdir changed => exact mkdir_cases h

/-! ## What is returned -/

/-- The paths of the calls that have not returned, the innermost first. -/
def State.pending (s : State σ) : List Path :=
  match s.control with
  | .calling path => path :: s.levels.map Level.path
  | .returned _ | .aborted => s.levels.map Level.path

/-- The outermost call is for `path`. -/
def Outermost (path : Path) (s : State σ) : Prop := ∀ p ∈ s.pending.getLast?, p = path

theorem Outermost.eq {path p : Path} (h : Outermost path s) (hp : s.pending = [p]) : p = path := h p (by simp [hp])

theorem outermost_of_cons {path p : Path} {paths : List Path} (h : ∀ q ∈ (p :: paths).getLast?, q = path) :
    ∀ q ∈ paths.getLast?, q = path := by
  cases paths with
  | nil => simp
  | cons p' paths => simpa only [List.getLast?_cons_cons] using h

theorem step_outermost {path : Path} (h : Step fs mkdirMode s a s') (ho : Outermost path s) : Outermost path s' := by
  cases h with
  | others => exact ho
  | found hc =>
    simp only [Outermost, State.pending, hc] at ho
    exact outermost_of_cons ho
  | missing hc =>
    simp only [Outermost, State.pending, hc] at ho
    simpa only [Outermost, State.pending, List.map_cons, List.getLast?_cons_cons] using ho
  | aborted hc =>
    simp only [Outermost, State.pending, hc] at ho ⊢
    exact ho
  | parentFailed hc hl | skipped hc hl | made hc hl | failed hc hl =>
    simp only [Outermost, State.pending, hc, hl, List.map_cons] at ho ⊢
    exact outermost_of_cons ho

/-- What a call has come to where `met` says whether the steps up to here met
the condition. Once `mkdir` has failed, every call returns 0. -/
def Told (fs : FileSystem σ) (path : Path) (met : Prop) (s : State σ) : Prop :=
  match s.control with
  | .calling _ => s.failed = [] ∧ met
  | .returned true => s.failed = [] ∧ (met ↔ (s.levels = [] → fs.Exists s.files path))
  | .returned false => ∃ e, s.failed = [e] ∧ (met ↔ e ≠ .eexist)
  | .aborted => ¬ met

theorem unraced_iff {level : Level} {levels : List Level} {changed : Option Errno} (hl : s.levels = level :: levels) :
    Unraced fs mkdirMode s (.mkdir changed) ↔ level.owned = true ∧ (s.control = .returned true →
      if changed.getD s.errno = .eexist then levels = [] → fs.Exists s.files level.path
      else fs.mkdir s.files level.path mkdirMode ≠ .error .eexist) := by
  constructor
  · intro h
    exact h level levels hl
  · intro h level' levels' hl'
    obtain ⟨rfl, rfl⟩ := List.cons.inj (hl.symm.trans hl')
    exact h

/-- The only call that waits is the outermost one. -/
theorem Outermost.eq_last {path : Path} {level : Level} {status : Bool} (h : Outermost path s)
    (hc : s.control = .returned status) (hl : s.levels = [level]) : level.path = path :=
  h.eq (by rw [State.pending, hc, hl]; rfl)

/-- A step keeps the account, with its own condition added. -/
theorem step_told {path : Path} {met : Prop} (h : Step fs mkdirMode s a s') (ho : Outermost path s)
    (ht : Told fs path met s) : Told fs path (met ∧ Unraced fs mkdirMode s a) s' := by
  cases h with
  | @others files hf =>
    -- the outermost call has not returned, so nothing is said of the files yet
    obtain ⟨files₀, errno, control, levels, failed⟩ := s
    match control, ht with
    | .calling _, ⟨hfailed, hmet⟩ => exact ⟨hfailed, hmet, trivial⟩
    | .returned false, ⟨e, hfailed, hmet⟩ => exact ⟨e, hfailed, by simp only [Unraced, and_true, hmet]⟩
    | .returned true, ⟨hfailed, hmet⟩ =>
      have hl : levels ≠ [] := by simpa [State.ended] using hf
      exact ⟨hfailed, by simpa only [Unraced, and_true, hl, false_imp_iff] using hmet⟩
    | .aborted, ht => cases hf
  | @found p _ hc ha =>
    simp only [Told, hc] at ht
    refine ⟨ht.1, fun _ hl => ?_, fun _ => ⟨ht.2, trivial⟩⟩
    have hp : p = path := ho.eq (by rw [State.pending, hc, show s.levels = [] from hl]; rfl)
    exact hp ▸ fs.access_exists ha
  | missing hc ha =>
    simp only [Told, hc] at ht
    exact ⟨ht.1, ht.2, trivial⟩
  | aborted hc hl howned =>
    rintro ⟨-, hunraced⟩
    rw [((unraced_iff hl).1 hunraced).1] at howned
    cases howned
  | parentFailed hc hl howned =>
    simp only [Told, hc] at ht ⊢
    obtain ⟨e, hfailed, hmet⟩ := ht
    refine ⟨e, hfailed, ?_⟩
    rw [unraced_iff hl, hc]
    simp [howned, hmet]
  | @skipped level levels _ hc hl howned he =>
    simp only [Told, hc, hl, reduceCtorEq, false_imp_iff, iff_true] at ht ⊢
    rw [unraced_iff hl, if_pos he, and_iff_right howned, hc, eq_self, true_imp_iff]
    refine ⟨ht.1, ?_⟩
    rw [and_iff_right ht.2]
    refine imp_congr_right fun hnil => ?_
    rw [ho.eq_last hc (by rw [hl, hnil])]
  | @made level levels _ files hc hl howned he hm =>
    simp only [Told, hc, hl, reduceCtorEq, false_imp_iff, iff_true] at ht ⊢
    rw [unraced_iff hl, if_neg he, hm]
    refine ⟨ht.1, fun _ hnil => ?_, fun _ => ⟨ht.2, howned, by simp⟩⟩
    exact ho.eq_last hc (by rw [hl, hnil]) ▸ fs.mkdir_exists hm
  | @failed level levels _ e hc hl howned he hm =>
    simp only [Told, hc, hl, reduceCtorEq, false_imp_iff, iff_true] at ht ⊢
    rw [unraced_iff hl, if_neg he, hm]
    exact ⟨e, by rw [ht.1, List.nil_append], by simp [ht.2, howned, hc]⟩

section
variable {path : Path} {files : σ} {errno : Errno} {as : List (Action σ)}

theorem run_told {ok : State σ → Action σ → Prop} (h : Run (step fs mkdirMode) ok (start path files errno) as s) :
    Outermost path s ∧ Told fs path
      (Run (step fs mkdirMode) (fun s a => ok s a ∧ Unraced fs mkdirMode s a) (start path files errno) as s) s := by
  induction h with
  | nil => exact ⟨by simp [Outermost, State.pending, start], rfl, .nil⟩
  | @snoc as a s s' hr ha hs ih =>
    obtain ⟨ho, ht⟩ := ih
    have hstep := step_cases hs
    refine ⟨step_outermost hstep ho, ?_⟩
    rw [hr.snoc_iff hs, and_iff_right ha]
    exact step_told hstep ho ht

theorem ended_cases (h : s.ended = true) :
    s.control = .aborted ∨ s.levels = [] ∧ ∃ status, s.control = .returned status := by
  unfold State.ended at h
  split at h
  · cases h
  · rename_i status hc
    exact .inr ⟨List.isEmpty_iff.1 h, status, hc⟩
  · rename_i hc
    exact .inl hc

/-- A value is returned, as wanted, in the runs whose steps are all unraced, and
in no other ones. -/
theorem ensure_directory_structure_iff
    (h : Run (step fs mkdirMode) (Keeps fs) (start path files errno) as s) (hended : s.ended = true) :
    Truthful fs path s ↔ Run (step fs mkdirMode) (fun s a => Keeps fs s a ∧ Unraced fs mkdirMode s a)
      (start path files errno) as s := by
  obtain ⟨-, ht⟩ := run_told h
  rcases ended_cases hended with hc | ⟨hl, status, hc⟩
  · simp only [Told, hc] at ht
    exact iff_of_false (by simp [Truthful, hc]) ht
  · cases status with
    | true =>
      simp only [Told, hc, hl, true_imp_iff] at ht
      simp only [Truthful, hc, ht.2]
    | false =>
      simp only [Told, hc] at ht
      obtain ⟨e, hfailed, hmet⟩ := ht
      simp only [Truthful, hc, hfailed, hmet, List.mem_singleton, exists_eq_left]

/-! ## A file system of directories -/

/-- No slash is before the last component. -/
def bare (path : Path) : Bool :=
  path.isEmpty || (!(path.rdropWhile (· = slash)).isEmpty && !(path.rdropWhile (· = slash)).contains slash)

/-- Directories by their paths, with the root and the working directory always
there. Where there is no slash to end the string at, `dirname` returns its own `"."`. -/
def tree : FileSystem (List Path) where
  Exists dirs path := path ∈ [slash] :: [dot] :: dirs
  access dirs path := if path ∈ [slash] :: [dot] :: dirs then .ok () else .error .enoent
  mkdir dirs path _ :=
    if path ∈ [slash] :: [dot] :: dirs then .error .eexist
    else if dirname path ∈ [slash] :: [dot] :: dirs then .ok (path :: dirs)
    else .error .enoent
  static := bare
  access_exists h := by
    split at h
    · assumption
    · cases h
  access_error := by
    intro dirs path
    split <;> simp
  mkdir_exists h := by
    split at h
    · cases h
    split at h
    · cases h
      simp
    · cases h

/-- `"/a"` is made in the root. -/
theorem ensure_directory_structure_made :
    ∃ as s, Run (step tree 511) (Keeps tree) (start [slash, 97] [] (.other 0)) as s ∧ s.ended = true ∧
      (Truthful tree [slash, 97] s ↔ Run (step tree 511) (fun s a => Keeps tree s a ∧ Unraced tree 511 s a)
        (start [slash, 97] [] (.other 0)) as s) := by
  have h : Run (step tree 511) (Keeps tree) (start [slash, 97] [] (.other 0))
      [.access true, .access true, .mkdir none] ⟨[[slash, 97]], .enoent, .returned true, [], []⟩ :=
    .cons trivial rfl (.cons trivial rfl (.single trivial rfl))
  exact ⟨_, _, h, rfl, ensure_directory_structure_iff h rfl⟩

/-- `"/a"` is made by another process before `mkdir` is called: 0 is returned,
for nothing but `EEXIST`. -/
theorem race_refused :
    ∃ as s, Run (step tree 511) (Keeps tree) (start [slash, 97] [] (.other 0)) as s ∧ s.ended = true ∧
      ¬ Truthful tree [slash, 97] s := by
  have h : Run (step tree 511) (Keeps tree) (start [slash, 97] [] (.other 0))
      [.access true, .access true, .others [[slash, 97]], .mkdir none]
      ⟨[[slash, 97]], .eexist, .returned false, [], [.eexist]⟩ :=
    .cons trivial rfl (.cons trivial rfl (.cons (fun _ h => List.mem_append_left [[slash, 97]] h) rfl (.single trivial rfl)))
  refine ⟨_, _, h, rfl, ?_⟩
  simp [Truthful]

/-- `"a"` is never made: what `dirname` returned is freed first. -/
example : exec (step tree 511) (start [97] [] (.other 0)) [.access true, .access true, .mkdir none] =
    some ⟨[], .enoent, .aborted, [⟨[97], false⟩], []⟩ := rfl

/-! ## Where calls that succeed leave `errno` alone -/

def Quiet (_ : State σ) : Action σ → Prop
  | .mkdir changed => changed = none
  | _ => True

/-- `errno` is from `access` or `malloc` whenever it is read. -/
def Sound (fs : FileSystem σ) (path : Path) (s : State σ) : Prop :=
  match s.control with
  | .calling _ => s.levels ≠ [] → s.errno ≠ .eexist
  | .returned true => (s.levels ≠ [] → s.errno ≠ .eexist) ∧ (s.levels = [] → fs.Exists s.files path)
  | .returned false | .aborted => True

theorem step_sound {path : Path} (h : Step fs mkdirMode s a s') (hq : Quiet s a) (ho : Outermost path s)
    (hs : Sound fs path s) : Sound fs path s' := by
  cases h with
  | others hf =>
    obtain ⟨files₀, errno, control, levels, failed⟩ := s
    match control, hs with
    | .calling _, hs => exact hs
    | .returned false, _ => trivial
    | .returned true, hs =>
      have hl : levels ≠ [] := by simpa [State.ended] using hf
      exact ⟨hs.1, fun hnil => absurd hnil hl⟩
    | .aborted, _ => trivial
  | @found p _ hc ha =>
    simp only [Sound, hc] at hs
    refine ⟨hs, fun hl => ?_⟩
    have hp : p = path := ho.eq (by rw [State.pending, hc, show s.levels = [] from hl]; rfl)
    exact hp ▸ fs.access_exists ha
  | @missing _ granted e hc ha =>
    intro _
    cases granted with
    | false => simp
    | true =>
      rintro rfl
      exact fs.access_error ha
  | aborted => trivial
  | parentFailed hc => simp only [Sound, hc]
  | skipped hc hl howned he =>
    obtain rfl : _ = none := hq
    simp only [Sound, hc] at hs
    exact absurd he (hs.1 (by simp [hl]))
  | @made level levels _ files hc hl howned he hm =>
    simp only [Sound, hc]
    refine ⟨fun _ => he, fun hnil => ?_⟩
    exact ho.eq_last hc (by rw [hl, show levels = [] from hnil]) ▸ fs.mkdir_exists hm
  | failed => trivial

/-- The test for `EEXIST` does no harm then, and no good: 1 is returned only for
a path that exists. -/
theorem exists_of_returned (h : Run (step fs mkdirMode) Quiet (start path files errno) as s)
    (hended : s.ended = true) (hc : s.control = .returned true) : fs.Exists s.files path := by
  have hs : Sound fs path s := h.inv₂ (fun _ _ hr => (run_told hr).1) (by simp [Sound, start])
    fun s a s' ho hs hq h => step_sound (step_cases h) hq ho hs
  simp only [Sound, hc] at hs
  refine hs.2 ?_
  simpa [State.ended, hc] using hended

/-! ## The recursion ends -/

/-- A parent is `"."`, `"/"` or shorter. -/
theorem dirname_shorter (path : Path) :
    dirname path = [dot] ∨ dirname path = [slash] ∨ (dirname path).length < path.length := by
  unfold dirname
  split
  · exact .inl rfl
  split
  · exact .inr (.inl rfl)
  rename_i hslashes
  extract_lets parent
  split
  · exact .inl rfl
  split
  · exact .inr (.inl rfl)
  -- what is left once the slashes at the end are gone ends with something else, which goes next
  refine .inr (.inr ?_)
  have hlast := List.rdropWhile_last_not _ _ hslashes
  have hne : parent ≠ path.rdropWhile (· = slash) := by
    rw [Ne, List.rdropWhile_eq_self_iff]
    intro h
    exact h hslashes (by simpa using hlast)
  have hparent : parent <+: path.rdropWhile (· = slash) := List.rdropWhile_prefix _ _
  calc (parent.rdropWhile (· = slash)).length ≤ parent.length := (List.rdropWhile_prefix _ _).length_le
    _ < (path.rdropWhile (· = slash)).length :=
      lt_of_le_of_ne hparent.length_le fun h => hne (hparent.eq_of_length h)
    _ ≤ path.length := (List.rdropWhile_prefix _ _).length_le

/-- How many calls there can be for a path, besides the one that finds `"."` or `"/"`. -/
def height (path : Path) : Nat := if path = [dot] ∨ path = [slash] then 0 else path.length + 1

theorem height_dirname2 {path : Path} (granted : Bool) (hdot : path ≠ [dot]) (hslash : path ≠ [slash]) :
    height (dirname2 granted path) < height path := by
  have hpath : height path = path.length + 1 := if_neg (by simp [hdot, hslash])
  cases granted with
  | false => simp [dirname2, dirname, height, hdot, hslash]
  | true =>
    rcases dirname_shorter path with h | h | h
    · rw [hpath, dirname2, if_pos rfl, h]
      simp [height]
    · rw [hpath, dirname2, if_pos rfl, h]
      simp [height]
    · rw [hpath, dirname2, if_pos rfl]
      unfold height
      split <;> omega

/-- How many steps are left at most. -/
def State.remaining (s : State σ) : Nat :=
  match s.control with
  | .calling path => 2 * height path + 1 + s.levels.length
  | .returned _ => s.levels.length
  | .aborted => 0

/-- A step of the function, not of other processes. -/
def Action.own : Action σ → Bool
  | .others _ => false
  | _ => true

/-- There are the root and a working directory. -/
def Rooted (fs : FileSystem σ) : Prop :=
  ∀ files, fs.access files [slash] = .ok () ∧ fs.access files [dot] = .ok ()

theorem step_remaining (h : Step fs mkdirMode s a s') (hroot : Rooted fs) :
    s'.remaining + (if a.own then 1 else 0) ≤ s.remaining := by
  cases h with
  | others => exact Nat.le_refl _
  | found hc =>
    simp only [State.remaining, hc, Action.own, if_true]
    omega
  | @missing path granted e hc ha =>
    have hheight : height (dirname2 granted path) < height path := by
      refine height_dirname2 granted ?_ ?_ <;> rintro rfl
      · rw [(hroot s.files).2] at ha
        cases ha
      · rw [(hroot s.files).1] at ha
        cases ha
    simp only [State.remaining, hc, Action.own, if_true, List.length_cons]
    omega
  | aborted hc hl =>
    simp only [State.remaining, hc, hl, Action.own, if_true, List.length_cons]
    omega
  | parentFailed hc hl | skipped hc hl | made hc hl | failed hc hl =>
    simp only [State.remaining, hc, hl, Action.own, if_true, List.length_cons, Nat.le_refl]

theorem own_step_of_unended (h : s.ended = false) : ∃ a, a.own = true ∧ (step fs mkdirMode s a).isSome = true := by
  obtain ⟨files, errno, control, levels, failed⟩ := s
  match control, levels with
  | .calling path, levels =>
    refine ⟨.access true, rfl, ?_⟩
    simp only [step]
    split <;> rfl
  | .returned status, level :: levels =>
    refine ⟨.mkdir none, rfl, ?_⟩
    simp only [step]
    split <;> try split <;> try split <;> try split
    all_goals rfl
  | .returned _, [] => cases h
  | .aborted, _ => cases h

/-- With a root and a working directory, every run takes a bounded number of
steps of its own, and can go on until the outermost call returns or `free` ends the process. -/
theorem ensure_directory_structure_ends {ok : State σ → Action σ → Prop} (hroot : Rooted fs)
    (h : Run (step fs mkdirMode) ok (start path files errno) as s) :
    as.countP Action.own ≤ 2 * path.length + 3 ∧
      (s.ended = true ∨ ∃ a, a.own = true ∧ (step fs mkdirMode s a).isSome = true) := by
  have hremaining : s.remaining + as.countP Action.own ≤ 2 * path.length + 3 := by
    induction h with
    | nil =>
      simp only [State.remaining, start, height, List.countP_nil, List.length_nil]
      split <;> omega
    | snoc _ _ hs ih =>
      have := step_remaining (step_cases hs) hroot
      rw [List.countP_append, List.countP_singleton]
      omega
  refine ⟨by omega, ?_⟩
  cases hended : s.ended with
  | true => exact .inl rfl
  | false => exact .inr (own_step_of_unended hended)

end

end SphSc.Directories
