import SphSc.Ikv.ReadValue
import SphSc.Ikv.Reading
/-!
# `ikv_read_indent` and what it calls

The reader again, with all it calls as parameters on a memory of any kind: the
allocations, `ikv_new`, `ikv_set` and `read_value`. An access of its own that
leaves an array is told apart from a call that stops.
-/
open Exec Lines

namespace SphSc.Ikv.Indent

/-- Why the reader stops. -/
inductive Fault where
  /-- It leaves an array, or passes on something that it has not set. -/
  | own
  | call (stop : Stop)
  deriving DecidableEq

section
variable {α β : Type}

def own (x : Exec α) : Except Fault α := x.mapError fun _ => .own

def called (x : Exec α) : Except Fault α := x.mapError .call

/-- A stop, whatever it comes from. -/
def forget (x : Except Fault α) : Exec α :=
  x.mapError fun
    | .own => .outOfBounds
    | .call stop => stop

@[simp] theorem own_ok (a : α) : own (.ok a) = .ok a := rfl

@[simp] theorem own_error (e : Stop) : own (.error e : Exec α) = .error .own := rfl

@[simp] theorem called_ok (a : α) : called (.ok a) = .ok a := rfl

@[simp] theorem ok_bind (a : α) (f : α → Except Fault β) : (Except.ok a >>= f) = f a := rfl

@[simp] theorem error_bind (e : Fault) (f : α → Except Fault β) : (Except.error e >>= f) = .error e := rfl

end

/-- What the reader calls: `σ` is the memory, `K` and `T` are pointers to keys
and to tables, `V` is a value. -/
structure Calls (σ K T V : Type) where
  /-- `malloc` and `memcpy` of the key that ends at an index, `none` without memory. -/
  copyKey : σ → (line : List Byte) → (nesting i : Nat) → Exec (Option K × σ)
  /-- `malloc(sizeof(ikv_t))` -/
  malloc : σ → Bool × σ
  /-- `ikv_new(100, nested_ikv)`, its status and the table. -/
  new : σ → Exec (Nat × T × σ)
  /-- A value that points to a table. -/
  pointer : T → V
  readValue : σ → List Byte → Exec (Status × V × σ)
  /-- `ikv_set`, and whether it returns a slot. -/
  set : σ → T → K → V → Exec (Bool × σ)

/-- The variables of `ikv_read_indent`. What was not set holds `none`. -/
structure State (σ K T : Type) where
  memory : σ
  status : Status
  key : Option K
  nestedKeys : List (Option K)
  nestedIkvs : List (Option T)

variable {σ K T V : Type} (calls : Calls σ K T V)

/-- `ikv_set(nested_ikvs[nesting], key, value)`, with the status if it fails. -/
def setNested (s : State σ K T) (nesting : Nat) (key : Option K) (value : V) : Except Fault (State σ K T) := do
  let some a ← own (Exec.read s.nestedIkvs nesting) | .error .own
  let some key := key | .error .own
  let (placed, memory) ← called (calls.set s.memory a key value)
  return { s with memory, status := if placed then s.status else ⟨idFull, "ikv"⟩ }

/-- Keys without value start nesting. -/
def startNesting (s : State σ K T) (nesting : Nat) : Except Fault (State σ K T) := do
  let (granted, memory) := calls.malloc s.memory
  if !granted then return { s with memory, status := memoryError }
  else
    let (id, t, memory) ← called (calls.new memory)
    let status := { s.status with id }
    if id ≠ 0 then return { s with memory, status }
    else
      let nestedIkvs ← own (write s.nestedIkvs (nesting + 1) (some t))
      setNested calls { s with memory, status, nestedIkvs } nesting s.key (calls.pointer t)

/-- What is done with a key; `i` is where the text after it starts. -/
def readEntry (s : State σ K T) (line : List Byte) (nesting i : Nat) : Except Fault (State σ K T) := do
  if i = line.length then startNesting calls s nesting
  else
    let (status, value, memory) ← called (calls.readValue s.memory (line.drop i))
    if status.id ≠ 0 then return { s with memory, status }
    else
      let key ← own (Exec.read s.nestedKeys nesting)
      setNested calls { s with memory, status } nesting key value

/-- What is done with a line whose key ends at `i`. -/
def readKeyed (s : State σ K T) (line : List Byte) (nesting i : Nat) : Except Fault (State σ K T) := do
  match ← called (calls.copyKey s.memory line nesting i) with
  | (none, memory) => return { s with memory, status := memoryError }
  | (some key, memory) =>
    let nestedKeys ← own (write s.nestedKeys nesting (some key))
    readEntry calls { s with memory, key := some key, nestedKeys } line nesting i

/-- A round of the loop over the lines. -/
def readLine (s : State σ K T) (line : List Byte) : Except Fault (State σ K T) := do
  let line := cstring line
  if line.length = 0 then return s
  else
    let line := if (← own (Exec.read line (line.length - 1))) = newline then line.take (line.length - 1) else line
    let i ← own (skipIndent line line.length 0)
    let nesting := i / 2 % 256
    match ← own (findKeyEnd line (line.length - i) i) with
    | none => readEntry calls s line nesting i
    | some i => readKeyed calls s line nesting i

def readLines : State σ K T → List (List Byte) → Except Fault (State σ K T)
  | s, [] => return s
  | s, line :: rest => do
    let s ← readLine calls s line
    if s.status.id ≠ 0 then return s else readLines s rest

/-- The variables before the first line, with the table that is passed in. -/
def start (memory : σ) (ikv : T) : State σ K T where
  memory
  status := ⟨0, ""⟩
  key := none
  nestedKeys := List.replicate maxNesting none
  nestedIkvs := some ikv :: List.replicate (maxNesting - 1) none

/-- `ikv_read_indent` -/
def readIndent (memory : σ) (ikv : T) (file : List Byte) : Except Fault (Status × σ) := do
  let s ← readLines calls (start memory ikv) (lines newline file)
  return (s.status, s.memory)

/-! ## Lines -/

/-- What the reader looks at of a line: what is before a NUL, without the newline. -/
def content (line : List Byte) : List Byte := stripped (cstring line)

def contents (lines : List (List Byte)) : List (List Byte) := (lines.filter fun line => cstring line ≠ []).map content

theorem contents_skipped {line : List Byte} (h : cstring line = []) (rest : List (List Byte)) :
    contents (line :: rest) = contents rest := by
  simp [contents, h]

theorem contents_cons {line : List Byte} (h : cstring line ≠ []) (rest : List (List Byte)) :
    contents (line :: rest) = content line :: contents rest := by
  simp [contents, h]

/-! ## Rounds -/

section
variable (s : State σ K T) {line : List Byte}

theorem readLine_skipped (h : cstring line = []) : readLine calls s line = .ok s := by
  unfold readLine
  dsimp only
  rw [if_pos (List.length_eq_zero_iff.2 h)]
  rfl

/-- A round of the loop, where the text is taken apart. -/
theorem readLine_eq (h : cstring line ≠ []) : readLine calls s line =
    if body (content line) = [] then
      readEntry calls s (content line) (level (content line) % 256) (indent (content line))
    else readKeyed calls s (content line) (level (content line) % 256) (keyEnd (content line)) := by
  have hlen : (cstring line).length ≠ 0 := fun hnil => h (List.length_eq_zero_iff.1 hnil)
  obtain ⟨c, hc, hstrip⟩ := strip_eq hlen
  change _ = content line at hstrip
  unfold readLine
  dsimp only
  rw [if_neg hlen, hc, own_ok, ok_bind, hstrip, skipIndent_line, own_ok, ok_bind, findKeyEnd_line, own_ok, ok_bind]
  by_cases hbody : body (content line) = []
  · rw [if_pos hbody, if_pos hbody]
    rfl
  · rw [if_neg hbody, if_neg hbody]
    rfl

/-- A line of spaces only is taken for the last key once more. -/
theorem readLine_blank (h : cstring line ≠ []) (hbody : body (content line) = []) :
    readLine calls s line = startNesting calls s (level (content line) % 256) := by
  have hend : indent (content line) = (content line).length := by
    rw [← indent_add (content line), hbody]
    rfl
  rw [readLine_eq calls s h, if_pos hbody, readEntry, if_pos hend]

theorem readLine_key (h : cstring line ≠ []) (hbody : body (content line) ≠ []) : readLine calls s line =
    readKeyed calls s (content line) (level (content line) % 256) (keyEnd (content line)) := by
  rw [readLine_eq calls s h, if_neg hbody]

end

/-! ## Tables -/

section
variable {α β F : Type}

theorem forget_bind (x : Except Fault α) (f : α → Except Fault β) :
    forget (x >>= f) = (forget x >>= fun a => forget (f a)) := by
  cases x <;> rfl

theorem forget_called (x : Exec α) : forget (called x) = x := by
  cases x <;> rfl

theorem forget_read (block : List α) (i : Nat) : forget (own (Exec.read block i)) = Exec.read block i := by
  unfold Exec.read
  cases block[i]? <;> rfl

theorem forget_write (block : List α) (i : Nat) (a : α) : forget (own (write block i a)) = write block i a := by
  unfold write
  split <;> rfl

/-- What the reader of tables calls. -/
def tableCalls (r : Reader F) : Calls (Tables F) Key Nat (Value F) where
  copyKey ts line nesting i := do
    let key ← copyKey r.junkByte line nesting i
    return (some key, ts)
  malloc ts := (true, ts)
  new ts :=
    match Hashtable.new r.decl (fun _ => true) r.junkValue 100 with
    | (_, some t, _) => return (0, ts.length, ts ++ [t])
    | (id, none, _) => return (id.toNat, ts.length, ts)
  pointer := .ikv
  readValue ts text := do
    let (status, value) ← r.readValue text
    return (status, value, ts)
  set ts a key value := do
    let t ← Exec.read ts a
    let (t, p) ← Hashtable.set r.decl t key value
    let ts ← write ts a t
    return (p ≠ none, ts)

def view (s : Ikv.State F) : State (Tables F) Key Nat := ⟨s.tables, s.status, s.key, s.nestedKeys, s.nestedIkvs⟩

variable (r : Reader F) (s : Ikv.State F) (line : List Byte) (nesting i : Nat)

theorem setNested_tables (key : Option Key) (value : Value F) :
    forget (setNested (tableCalls r) (view s) nesting key value) = view <$> Ikv.setNested r s nesting key value := by
  unfold setNested Ikv.setNested
  rw [forget_bind, forget_read]
  simp only [view]
  cases Exec.read s.nestedIkvs nesting with
  | error e => rfl
  | ok a =>
    cases a with
    | none => rfl
    | some a =>
      cases key with
      | none => rfl
      | some key =>
        simp only [Exec.ok_bind, forget_bind, forget_called, tableCalls]
        cases Exec.read s.tables a with
        | error e => rfl
        | ok t =>
          simp only [Exec.ok_bind]
          cases hset : Hashtable.set r.decl t key value with
          | error e => rfl
          | ok x =>
            obtain ⟨t', p⟩ := x
            simp only [Exec.ok_bind]
            cases write s.tables a t' with
            | error e => rfl
            | ok ts => cases p <;> rfl

theorem readEntry_tables :
    forget (readEntry (tableCalls r) (view s) line nesting i) = view <$> Ikv.readEntry r s line nesting i := by
  unfold readEntry Ikv.readEntry
  by_cases hi : i = line.length
  · -- keys without value
    obtain ⟨t, rs, hnew, -⟩ := new_hundred r
    rw [if_pos hi, if_pos hi, startNesting, hnew]
    simp only [tableCalls, hnew, Bool.not_true, Bool.false_eq_true, if_false, forget_bind, forget_called,
      Exec.pure_eq_ok, Exec.ok_bind, ne_eq, not_true_eq_false, forget_write]
    change (write s.nestedIkvs (nesting + 1) (some s.tables.length) >>= fun nestedIkvs => _) = _
    cases hwrite : write s.nestedIkvs (nesting + 1) (some s.tables.length) with
    | error e => rfl
    | ok nestedIkvs =>
      exact setNested_tables r { s with tables := s.tables ++ [t], status := { s.status with id := 0 }, nestedIkvs }
        nesting s.key (.ikv s.tables.length)
  · rw [if_neg hi, if_neg hi]
    simp only [forget_bind, forget_called, tableCalls]
    cases r.readValue (line.drop i) with
    | error e => rfl
    | ok x =>
      obtain ⟨status, value⟩ := x
      simp only [Exec.ok_bind, Exec.pure_eq_ok]
      by_cases hid : status.id ≠ 0
      · rw [if_pos hid, if_pos hid]
        rfl
      · rw [if_neg hid, if_neg hid, forget_bind, forget_read]
        change (Exec.read s.nestedKeys nesting >>= fun key => _) = _
        cases Exec.read s.nestedKeys nesting with
        | error e => rfl
        | ok key => exact setNested_tables r { s with status } nesting key value

theorem readLine_tables : forget (readLine (tableCalls r) (view s) line) = view <$> Ikv.readLine r s line := by
  by_cases hline : cstring line = []
  · rw [readLine_skipped _ _ hline]
    unfold Ikv.readLine
    dsimp only
    rw [if_pos (List.length_eq_zero_iff.2 hline)]
    rfl
  have hlen : (cstring line).length ≠ 0 := fun hnil => hline (List.length_eq_zero_iff.1 hnil)
  obtain ⟨c, hc, hstrip⟩ := strip_eq hlen
  change _ = content line at hstrip
  rw [readLine_eq _ _ hline]
  unfold Ikv.readLine
  dsimp only
  rw [if_neg hlen, hc, Exec.ok_bind, hstrip, skipIndent_line, Exec.ok_bind, findKeyEnd_line, Exec.ok_bind]
  generalize content line = line
  by_cases hbody : body line = []
  · rw [if_pos hbody, if_pos hbody]
    exact readEntry_tables r s line _ _
  · rw [if_neg hbody, if_neg hbody, readKeyed, forget_bind, forget_called]
    simp only [tableCalls]
    rw [level]
    cases copyKey r.junkByte line (indent line / 2 % 256) (keyEnd line) with
    | error e => rfl
    | ok key =>
      simp only [Exec.ok_bind, Exec.pure_eq_ok, forget_bind, forget_write]
      change (write s.nestedKeys (indent line / 2 % 256) (some key) >>= fun nestedKeys => _) = _
      cases write s.nestedKeys (indent line / 2 % 256) (some key) with
      | error e => rfl
      | ok nestedKeys => exact readEntry_tables r { s with key := some key, nestedKeys } line _ _

theorem readLines_tables (lines : List (List Byte)) :
    forget (readLines (tableCalls r) (view s) lines) = view <$> Ikv.readLines r s lines := by
  induction lines generalizing s with
  | nil => rfl
  | cons line rest ih =>
    rw [readLines, Ikv.readLines, forget_bind, readLine_tables]
    cases Ikv.readLine r s line with
    | error e => rfl
    | ok s' =>
      simp only [Except.map_ok, Exec.ok_bind]
      by_cases hid : s'.status.id ≠ 0
      · rw [if_pos hid, if_pos (show (view s').status.id ≠ 0 from hid)]
        rfl
      · rw [if_neg hid, if_neg (show ¬ (view s').status.id ≠ 0 from hid)]
        exact ih s'

/-- The reader of tables is the reader with the calls of tables. -/
theorem readIndent_tables (file : List Byte) (ikv : Hashtable.Table Key (Value F)) :
    forget (readIndent (tableCalls r) [ikv] 0 file) = Ikv.readIndent r file ikv := by
  unfold readIndent Ikv.readIndent
  rw [forget_bind]
  have hlines : forget (readLines (tableCalls r) (start [ikv] 0) (lines newline file)) = _ := readLines_tables r
    { tables := [ikv]
      status := ⟨0, ""⟩
      key := none
      nestedKeys := List.replicate maxNesting none
      nestedIkvs := some 0 :: List.replicate (maxNesting - 1) none } (lines newline file)
  rw [hlines]
  cases Ikv.readLines r _ (lines newline file) <;> rfl

end

end SphSc.Ikv.Indent
