import SphSc.Ikv.Indent
/-!
# `ikv_read_indent` and the depth of a text

The reader takes the depth of a line from its indentation, never compares it
with `ikv_max_nesting` and never asks if there is a table at that depth. It
stays inside its arrays and reports what it cannot represent exactly if there
is nothing to report.
-/
open Exec Lines

namespace SphSc.Ikv.Indent

variable {σ K T V : Type} {calls : Calls σ K T V}

/-- How deep a line may be after this one. A line of spaces only says nothing. -/
def opens (opened : Nat) (line : List Byte) : Nat :=
  if body line = [] then opened else if Valued line then level line else level line + 1

/-- What a text of nested tables looks like: `opened` is how deep the next line
may be. A line is at most one level below a key without value right before it,
and such a key is at a level that has one below it. -/
def Representable : (opened : Nat) → List (List Byte) → Prop
  | _, [] => True
  | opened, line :: rest =>
    (body line ≠ [] → level line ≤ opened ∧ (¬ Valued line → level line + 1 < maxNesting)) ∧
      Representable (opens opened line) rest

/-- The deepest level with a table after a line. -/
def deepest (assigned : Nat) (line : List Byte) : Nat :=
  if Valued line then assigned else max assigned (level line % 256 + 1)

/-- There is a table at the level of a line, one more fits in if the line has
no value, and there is a key if it has none of its own. -/
structure Fits (assigned : Nat) (keyed : Bool) (line : List Byte) : Prop where
  table : level line % 256 ≤ assigned
  below : ¬ Valued line → level line % 256 + 1 < maxNesting
  key : body line = [] → keyed = true

/-- The lines of spaces only fit in. `assigned` is the deepest level with a
table, and `keyed` tells if there was a key. -/
def BlanksFit : (assigned : Nat) → (keyed : Bool) → List (List Byte) → Prop
  | _, _, [] => True
  | assigned, keyed, line :: rest =>
    (body line = [] → Fits assigned keyed line) ∧ BlanksFit (deepest assigned line) (keyed || body line ≠ []) rest

/-- `ikv_read_indent` on a text, whatever it calls: it stays inside its arrays,
passes on only what it has set, and gives an error for what is not representable. -/
def Safe (text : List Byte) : Prop :=
  ∀ (σ K T V : Type) (calls : Calls σ K T V) (memory : σ) (ikv : T),
    readIndent calls memory ikv text ≠ .error .own ∧
      ∀ status memory', readIndent calls memory ikv text = .ok (status, memory') →
        ¬ Representable 0 (contents (lines newline text)) → status.id ≠ 0

/-! ## What a round needs -/

def AllFit : (assigned : Nat) → (keyed : Bool) → List (List Byte) → Prop
  | _, _, [] => True
  | assigned, keyed, line :: rest =>
    Fits assigned keyed line ∧ AllFit (deepest assigned line) (keyed || body line ≠ []) rest

theorem not_valued {line : List Byte} (h : body line = []) : ¬ Valued line := by
  rw [Valued, h]
  exact List.not_mem_nil

/-- What is representable fits in, but for lines of spaces only. -/
theorem allFit_iff {opened assigned : Nat} {keyed : Bool} {lines : List (List Byte)} (hle : opened ≤ assigned)
    (hlt : opened < maxNesting) (h : Representable opened lines) :
    AllFit assigned keyed lines ↔ BlanksFit assigned keyed lines := by
  have hmax : maxNesting = 8 := rfl
  induction lines generalizing opened assigned keyed with
  | nil => exact Iff.rfl
  | cons line rest ih =>
    obtain ⟨hline, hrest⟩ := h
    by_cases hbody : body line = []
    · rw [opens, if_pos hbody] at hrest
      refine and_congr ⟨fun hfits _ => hfits, fun hfits => hfits hbody⟩ (ih ?_ hlt hrest)
      rw [deepest, if_neg (not_valued hbody)]
      omega
    · obtain ⟨hlevel, hbelow⟩ := hline hbody
      have hmod : level line % 256 = level line := by omega
      rw [opens, if_neg hbody] at hrest
      have hfits : Fits assigned keyed line :=
        ⟨by omega, fun hvalued => by have := hbelow hvalued; omega, fun h => absurd h hbody⟩
      refine and_congr (iff_of_true hfits fun h => absurd h hbody) ?_
      by_cases hvalued : Valued line
      · rw [if_pos hvalued] at hrest
        refine ih ?_ (by omega) hrest
        rw [deepest, if_pos hvalued]
        omega
      · have hdeep := hbelow hvalued
        rw [if_neg hvalued] at hrest
        refine ih ?_ hdeep hrest
        rw [deepest, if_neg hvalued]
        omega

/-- The arrays of the reader, with a table at each level up to `assigned`. -/
structure Tracks (assigned : Nat) (keyed : Bool) (s : State σ K T) : Prop where
  nestedKeys : s.nestedKeys.length = maxNesting
  nestedIkvs : s.nestedIkvs.length = maxNesting
  table : ∀ n, (∃ a, s.nestedIkvs[n]? = some (some a)) ↔ n ≤ assigned
  key : s.key.isSome = keyed

theorem tracks_start (memory : σ) (ikv : T) : Tracks 0 false (start memory ikv : State σ K T) := by
  refine ⟨rfl, rfl, ?_, rfl⟩
  intro n
  cases n with
  | zero => exact iff_of_true ⟨ikv, rfl⟩ (Nat.le_refl 0)
  | succ n =>
    refine iff_of_false ?_ (by omega)
    rintro ⟨a, ha⟩
    simp [start, List.getElem?_replicate] at ha

namespace Tracks

variable {assigned n : Nat} {keyed : Bool} {s : State σ K T}

theorem lt (h : Tracks assigned keyed s) : assigned < maxNesting := by
  obtain ⟨a, ha⟩ := (h.table assigned).2 (Nat.le_refl assigned)
  obtain ⟨hlt, -⟩ := List.getElem?_eq_some_iff.1 ha
  rwa [h.nestedIkvs] at hlt

theorem set (h : Tracks assigned keyed s) (hn : n ≤ assigned) (hlt : n + 1 < maxNesting) (a : T) :
    Tracks (max assigned (n + 1)) keyed { s with nestedIkvs := s.nestedIkvs.set (n + 1) (some a) } := by
  refine ⟨h.nestedKeys, by rw [List.length_set, h.nestedIkvs], ?_, h.key⟩
  intro m
  by_cases hm : n + 1 = m
  · subst hm
    rw [List.getElem?_set_self (by rw [h.nestedIkvs]; exact hlt)]
    exact iff_of_true ⟨a, rfl⟩ (Nat.le_max_right _ _)
  · rw [List.getElem?_set_ne hm, h.table]
    omega

end Tracks

/-- No access of the reader leaves an array, and `Q` holds if it goes on. -/
def Stays (Q : State σ K T → Prop) : Except Fault (State σ K T) → Prop
  | .ok s => s.status.id = 0 → Q s
  | .error .own => False
  | .error (.call _) => True

theorem stays_called {α : Type} {Q : State σ K T → Prop} {x : Exec α} {f : α → Except Fault (State σ K T)}
    (h : ∀ a, Stays Q (f a)) : Stays Q (called x >>= f) := by
  cases x with
  | error e => trivial
  | ok a => exact h a

section
variable {assigned n : Nat} {keyed : Bool} {s : State σ K T}

theorem setNested_stays {key : Option K} (hs : Tracks assigned keyed s) (hn : n ≤ assigned)
    (hkey : key.isSome = true) (value : V) : Stays (Tracks assigned keyed) (setNested calls s n key value) := by
  obtain ⟨a, ha⟩ := (hs.table n).2 hn
  obtain ⟨k, rfl⟩ := Option.isSome_iff_exists.1 hkey
  rw [setNested, read_eq_ok.2 ha]
  refine stays_called ?_
  rintro ⟨placed, memory⟩ -
  exact ⟨hs.nestedKeys, hs.nestedIkvs, hs.table, hs.key⟩

theorem startNesting_stays (hs : Tracks assigned true s) (hn : n ≤ assigned) (hlt : n + 1 < maxNesting) :
    Stays (Tracks (max assigned (n + 1)) true) (startNesting calls s n) := by
  unfold startNesting
  dsimp only
  split
  · -- no memory
    exact fun hid => absurd hid (Nat.succ_ne_zero 1)
  refine stays_called ?_
  rintro ⟨id, t, memory⟩
  dsimp only
  split
  · rename_i hid
    exact fun h => absurd h hid
  · rw [write_of_lt _ (by rw [hs.nestedIkvs]; exact hlt)]
    have hset : Tracks (max assigned (n + 1)) true { s with
        memory, status := { s.status with id }, nestedIkvs := s.nestedIkvs.set (n + 1) (some t) } :=
      ⟨hs.nestedKeys, (hs.set hn hlt t).nestedIkvs, (hs.set hn hlt t).table, hs.key⟩
    exact setNested_stays hset (by omega) hs.key _

variable (calls) in
/-- A line with a key, which is all of it or not. -/
theorem readKeyed_stays (line : List Byte) (i : Nat) (hs : Tracks assigned keyed s) (hn : n ≤ assigned)
    (hend : i = line.length → n + 1 < maxNesting) :
    Stays (Tracks (if i = line.length then max assigned (n + 1) else assigned) true)
      (readKeyed calls s line n i) := by
  have hlt := hs.lt
  refine stays_called ?_
  rintro ⟨key, memory⟩
  cases key with
  | none => exact fun hid => absurd hid (Nat.succ_ne_zero 1)
  | some key =>
    dsimp only
    rw [write_of_lt _ (by rw [hs.nestedKeys]; omega), own_ok, ok_bind, readEntry]
    have hset : Tracks assigned true { s with
        memory, key := some key, nestedKeys := s.nestedKeys.set n (some key) } :=
      ⟨by rw [List.length_set, hs.nestedKeys], hs.nestedIkvs, hs.table, rfl⟩
    split
    · rename_i hi
      exact startNesting_stays hset hn (hend hi)
    · refine stays_called ?_
      rintro ⟨status, value, memory⟩
      dsimp only
      split
      · rename_i hid
        exact fun h => absurd h hid
      · rw [read_eq_ok.2 (List.getElem?_set_self (by rw [hs.nestedKeys]; omega)), own_ok, ok_bind]
        have hread : Tracks assigned true { s with
            memory, status, key := some key, nestedKeys := s.nestedKeys.set n (some key) } :=
          ⟨hset.nestedKeys, hs.nestedIkvs, hs.table, rfl⟩
        apply setNested_stays hread hn
        rfl

variable (calls) in
theorem readLine_stays (hs : Tracks assigned keyed s) {line : List Byte} (hline : cstring line ≠ [])
    (h : Fits assigned keyed (content line)) :
    Stays (Tracks (deepest assigned (content line)) (keyed || body (content line) ≠ []))
      (readLine calls s line) := by
  rw [deepest]
  by_cases hbody : body (content line) = []
  · -- the last key once more
    obtain rfl := h.key hbody
    rw [readLine_blank calls s hline hbody, if_neg (not_valued hbody)]
    exact startNesting_stays hs h.table (h.below (not_valued hbody))
  · have hkey : (keyed || decide (body (content line) ≠ [])) = true := by
      rw [decide_eq_true hbody, Bool.or_true]
    have hend := keyEnd_eq_iff (content line)
    have hstays := readKeyed_stays calls (content line) (keyEnd (content line)) hs h.table
      fun h' => h.below (hend.1 h')
    rw [readLine_key calls s hline hbody, hkey]
    simpa only [hend, ite_not] using hstays

variable (calls) in
/-- Where all lines fit in, no access leaves an array. -/
theorem readLines_stays {lines : List (List Byte)} (hs : Tracks assigned keyed s)
    (h : AllFit assigned keyed (contents lines)) : readLines calls s lines ≠ .error .own := by
  induction lines generalizing s assigned keyed with
  | nil =>
    intro h
    cases h
  | cons line rest ih =>
    rw [readLines]
    by_cases hskip : cstring line = []
    · rw [contents_skipped hskip] at h
      rw [readLine_skipped calls s hskip, ok_bind]
      split
      · intro h
        cases h
      · exact ih hs h
    rw [contents_cons hskip] at h
    have hstays := readLine_stays calls hs hskip h.1
    cases hline : readLine calls s line with
    | error e =>
      rw [hline] at hstays
      cases e with
      | own => exact absurd hstays id
      | call stop =>
        intro h
        cases h
    | ok s' =>
      rw [hline] at hstays
      rw [ok_bind]
      split
      · intro h
        cases h
      · rename_i hid
        exact ih (hstays (not_not.1 hid)) h.2

end

/-! ## Calls that always succeed -/

/-- Calls on no memory at all. -/
def unitCalls : Calls Unit Unit Unit Unit where
  copyKey _ _ _ _ := .ok (some (), ())
  malloc _ := (true, ())
  new _ := .ok (0, (), ())
  pointer _ := ()
  readValue _ _ := .ok (⟨0, ""⟩, (), ())
  set _ _ _ _ := .ok (true, ())

section
variable {assigned n : Nat} {keyed : Bool} {s : State Unit Unit Unit}

theorem setNested_unit (s : State Unit Unit Unit) (n : Nat) (key : Option Unit) :
    setNested unitCalls s n key () = .error .own ∨
      (∃ a, s.nestedIkvs[n]? = some (some a)) ∧ key.isSome = true ∧ setNested unitCalls s n key () = .ok s := by
  unfold setNested
  cases hread : Exec.read s.nestedIkvs n with
  | error e => exact .inl rfl
  | ok a =>
    cases a with
    | none => exact .inl rfl
    | some a =>
      cases key with
      | none => exact .inl rfl
      | some key => exact .inr ⟨⟨a, read_eq_ok.1 hread⟩, rfl, rfl⟩

theorem startNesting_unit (hs : Tracks assigned keyed s) : startNesting unitCalls s n = .error .own ∨
    keyed = true ∧ n ≤ assigned ∧ n + 1 < maxNesting ∧
      ∃ s', startNesting unitCalls s n = .ok s' ∧ s'.status.id = 0 := by
  have hlength := hs.nestedIkvs
  unfold startNesting
  simp only [unitCalls, Bool.not_true, Bool.false_eq_true, if_false, called_ok, ok_bind, ne_eq, not_true_eq_false]
  by_cases hlt : n + 1 < maxNesting
  · rw [write_of_lt _ (by omega), own_ok, ok_bind]
    have hset := setNested_unit { s with
      memory := (), status := { s.status with id := 0 }, nestedIkvs := s.nestedIkvs.set (n + 1) (some ()) } n s.key
    refine hset.imp id ?_
    rintro ⟨htable, hkey, hok⟩
    rw [List.getElem?_set_ne (Nat.succ_ne_self n), hs.table] at htable
    exact ⟨hs.key ▸ hkey, htable, hlt, _, hok, rfl⟩
  · rw [write, if_neg (by omega)]
    exact .inl rfl

theorem readKeyed_unit (line : List Byte) (i : Nat) (hs : Tracks assigned keyed s) :
    readKeyed unitCalls s line n i = .error .own ∨
      n ≤ assigned ∧ (i = line.length → n + 1 < maxNesting) ∧
        ∃ s', readKeyed unitCalls s line n i = .ok s' ∧ s'.status.id = 0 := by
  unfold readKeyed
  by_cases hlt : n < maxNesting
  · have hwrite : write s.nestedKeys n (some ()) = .ok (s.nestedKeys.set n (some ())) :=
      write_of_lt _ (by rw [hs.nestedKeys]; exact hlt)
    have hset : Tracks assigned true { s with key := some (), nestedKeys := s.nestedKeys.set n (some ()) } :=
      ⟨by rw [List.length_set, hs.nestedKeys], hs.nestedIkvs, hs.table, rfl⟩
    simp only [unitCalls, called_ok, ok_bind, hwrite, own_ok]
    unfold readEntry
    by_cases hi : i = line.length
    · rw [if_pos hi]
      refine (startNesting_unit hset).imp id ?_
      rintro ⟨-, hn, hdeep, hok⟩
      exact ⟨hn, fun _ => hdeep, hok⟩
    · rw [if_neg hi]
      simp only [called_ok, ok_bind, ne_eq, not_true_eq_false, if_false]
      rw [read_eq_ok.2 (List.getElem?_set_self (by rw [hs.nestedKeys]; exact hlt)), own_ok, ok_bind]
      refine (setNested_unit _ n (some ())).imp id ?_
      rintro ⟨htable, -, hok⟩
      exact ⟨(hs.table n).1 htable, fun h => absurd h hi, _, hok, rfl⟩
  · have hwrite : write s.nestedKeys n (some ()) = .error .outOfBounds := by
      rw [write, if_neg (by rw [hs.nestedKeys]; exact hlt)]
    simp only [unitCalls, called_ok, ok_bind, hwrite, own_error, error_bind, true_or]

theorem readLine_unit (hs : Tracks assigned keyed s) {line : List Byte} (hline : cstring line ≠ []) :
    readLine unitCalls s line = .error .own ∨ Fits assigned keyed (content line) ∧
      ∃ s', readLine unitCalls s line = .ok s' ∧ s'.status.id = 0 := by
  by_cases hbody : body (content line) = []
  · rw [readLine_blank unitCalls s hline hbody]
    refine (startNesting_unit hs).imp id ?_
    rintro ⟨hkey, hlevel, hbelow, hok⟩
    exact ⟨⟨hlevel, fun _ => hbelow, fun _ => hkey⟩, hok⟩
  · rw [readLine_key unitCalls s hline hbody]
    refine (readKeyed_unit _ _ hs).imp id ?_
    rintro ⟨hlevel, hbelow, hok⟩
    exact ⟨⟨hlevel, fun hvalued => hbelow ((keyEnd_eq_iff _).2 hvalued), fun h => absurd h hbody⟩, hok⟩

/-- With calls that always succeed, no text is reported. -/
theorem readLines_unit {lines : List (List Byte)} (hs : Tracks assigned keyed s) (hid : s.status.id = 0) :
    readLines unitCalls s lines = .error .own ∨
      AllFit assigned keyed (contents lines) ∧ ∃ s', readLines unitCalls s lines = .ok s' ∧ s'.status.id = 0 := by
  induction lines generalizing s assigned keyed with
  | nil => exact .inr ⟨trivial, s, rfl, hid⟩
  | cons line rest ih =>
    rw [readLines]
    by_cases hskip : cstring line = []
    · rw [contents_skipped hskip, readLine_skipped unitCalls s hskip, ok_bind, if_neg (not_not.2 hid)]
      exact ih hs hid
    rw [contents_cons hskip]
    rcases readLine_unit hs hskip with hown | ⟨hfits, s', hok, hid'⟩
    · rw [hown]
      exact .inl rfl
    · have hstays := readLine_stays unitCalls hs hskip hfits
      rw [hok] at hstays
      rw [hok, ok_bind, if_neg (not_not.2 hid')]
      exact (ih (hstays hid') hid').imp id fun h => ⟨⟨hfits, h.1⟩, h.2⟩

end

/-- The reader is safe exactly on the texts that it can represent, as long as
the lines of spaces only fit in. -/
theorem safe_iff (text : List Byte) : Safe text ↔
    Representable 0 (contents (lines newline text)) ∧ BlanksFit 0 false (contents (lines newline text)) := by
  constructor
  · intro h
    obtain ⟨hown, hstatus⟩ := h Unit Unit Unit Unit unitCalls () ()
    rcases readLines_unit (tracks_start () ()) rfl with hrun | ⟨hfit, s', hok, hid⟩
    · refine absurd ?_ hown
      rw [readIndent, hrun]
      rfl
    · have hread : readIndent unitCalls () () text = .ok (s'.status, s'.memory) := by
        rw [readIndent, hok]
        rfl
      have hrepresentable : Representable 0 (contents (lines newline text)) := by
        by_contra hnot
        exact hstatus _ _ hread hnot hid
      exact ⟨hrepresentable, (allFit_iff (Nat.le_refl 0) (Nat.succ_pos 7) hrepresentable).1 hfit⟩
  · rintro ⟨hrepresentable, hblanks⟩ σ K T V calls memory ikv
    refine ⟨?_, fun _ _ _ hnot => absurd hrepresentable hnot⟩
    have hfit := (allFit_iff (Nat.le_refl 0) (Nat.succ_pos 7) hrepresentable).2 hblanks
    have hrun := readLines_stays calls (tracks_start memory ikv) hfit
    rw [readIndent]
    intro hown
    cases hlines : readLines calls (start memory ikv) (lines newline text) with
    | ok s => rw [hlines] at hown; cases hown
    | error e => rw [hlines] at hown hrun; cases hown; exact hrun rfl

/-- "a" and a line of 14 spaces: `nested_ikvs[8]` is written. -/
theorem spaces_out_of_bounds : ¬ Safe ([97, newline] ++ List.replicate 14 space ++ [newline]) := by
  intro h
  exact (h Unit Unit Unit Unit unitCalls () ()).1 rfl

end SphSc.Ikv.Indent
