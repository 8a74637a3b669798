import Osi.Config.Text
import Mathlib.Logic.Function.Basic

/-!
# Saving a config when file operations fail

`config_save` writes the config to a temporary file and renames that file. The
file system is a map from paths to contents, and every file operation of the call
succeeds or fails as a list of outcomes says that is fixed beforehand, so that all
the positions of the first failure are covered. A failed operation on the stream
may leave anything in the temporary file. The disk keeps a log of the operations
with the state of the file system after each of them, and every file remembers
whether it was written by the call.
-/

namespace Osi

namespace Config

inductive Origin
  | before
  | call
  deriving DecidableEq, Repr

structure File where
  content : List UInt8
  origin : Origin
  deriving DecidableEq, Repr

abbrev FileSystem := Str → Option File

/-- The outcome of an operation, with what a failed operation on the stream
leaves in the file. -/
inductive Outcome
  | success
  | failure (leaves : List UInt8)
  deriving DecidableEq, Repr

/-- The file operations of `config_save`; `fprintf` and `fputc` are writes. -/
inductive FileOp
  | fopen (path : Str)
  | write (path : Str) (bytes : List UInt8)
  | fclose (path : Str)
  | chmod (path : Str)
  | rename (path path' : Str)
  | unlink (path : Str)
  deriving DecidableEq, Repr

def FileOp.paths : FileOp → List Str
  | fopen path | write path _ | fclose path | chmod path | unlink path => [path]
  | rename path path' => [path, path']

structure Event where
  op : FileOp
  succeeded : Bool
  files : FileSystem

structure Disk where
  files : FileSystem
  log : List Event

namespace Disk

def start (contents : Str → Option (List UInt8)) : Disk where
  files := fun path => (contents path).map fun content => { content := content, origin := .before }
  log := []

def perform (d : Disk) (op : FileOp) (succeeded : Bool) (files : FileSystem) : Disk where
  files := files
  log := d.log ++ [{ op := op, succeeded := succeeded, files := files }]

def next (outcome : ℕ → Outcome) (d : Disk) : Outcome := outcome d.log.length

variable (outcome : ℕ → Outcome)

def put (d : Disk) (path : Str) (content : List UInt8) : FileSystem :=
  Function.update d.files path (some { content := content, origin := .call })

def fopen (d : Disk) (path : Str) : Bool × Disk :=
  match d.next outcome with
  | .success => (true, d.perform (.fopen path) true (d.put path []))
  | .failure _ => (false, d.perform (.fopen path) false d.files)

def write (d : Disk) (path : Str) (bytes : List UInt8) : Bool × Disk :=
  match d.next outcome with
  | .success =>
      let old := ((d.files path).map File.content).getD []
      (true, d.perform (.write path bytes) true (d.put path (old ++ bytes)))
  | .failure leaves => (false, d.perform (.write path bytes) false (d.put path leaves))

def fclose (d : Disk) (path : Str) : Bool × Disk :=
  match d.next outcome with
  | .success => (true, d.perform (.fclose path) true d.files)
  | .failure leaves => (false, d.perform (.fclose path) false (d.put path leaves))

/-- `chmod`; the permissions are not part of the contents. -/
def chmod (d : Disk) (path : Str) : Bool × Disk :=
  match d.next outcome with
  | .success => (true, d.perform (.chmod path) true d.files)
  | .failure _ => (false, d.perform (.chmod path) false d.files)

def rename (d : Disk) (path path' : Str) : Bool × Disk :=
  match d.next outcome with
  | .success =>
      (true, d.perform (.rename path path') true
        (Function.update (Function.update d.files path' (d.files path)) path none))
  | .failure _ => (false, d.perform (.rename path path') false d.files)

def unlink (d : Disk) (path : Str) : Disk :=
  match d.next outcome with
  | .success => d.perform (.unlink path) true (Function.update d.files path none)
  | .failure _ => d.perform (.unlink path) false d.files

end Disk

/-- What follows an operation that succeeded; after a failure the code goes to
its error label. -/
def andThen (r : Bool × Disk) (k : Disk → Bool × Disk) : Bool × Disk :=
  if r.1 then k r.2 else r

section Code

variable (outcome : ℕ → Outcome)

def writeEntries (path : Str) : List Entry → Disk → Bool × Disk
  | [], d => (true, d)
  | entry :: entries, d =>
      andThen (d.write outcome path (entryLine entry ++ [10])) fun d =>
        writeEntries path entries d

/-- The outer loop of `config_save`: only sections that another one follows are
followed by a newline. -/
def writeSections (path : Str) : List Section → Disk → Bool × Disk
  | [], d => (true, d)
  | sec :: sections, d =>
      andThen (d.write outcome path (headerLine sec.name ++ [10])) fun d =>
        andThen (writeEntries outcome path sec.entries d) fun d =>
          andThen (if sections = [] then (true, d) else d.write outcome path [10]) fun d =>
            writeSections path sections d

def newSuffix : Str := [46, 110, 101, 119]

/-- The label `error`, with the stream closed or never opened. -/
def discard (path : Str) (d : Disk) : Bool × Disk := (false, d.unlink outcome path)

def commit (path filename : Str) (d : Disk) : Bool × Disk :=
  let r := andThen (d.chmod outcome path) fun d => d.rename outcome path filename
  if r.1 then (true, r.2) else discard outcome path r.2

def configSave (config : Config) (filename : Str) (d : Disk) : Bool × Disk :=
  let tempFilename := filename ++ newSuffix
  let opened := d.fopen outcome tempFilename
  if opened.1 then
    let written := writeSections outcome tempFilename config.sections opened.2
    let closed := written.2.fclose outcome tempFilename
    -- after a failed write the stream is closed at the error label, and the
    -- result of that `fclose` is not looked at
    if written.1 && closed.1 then commit outcome tempFilename filename closed.2
    else discard outcome tempFilename closed.2
  else discard outcome tempFilename opened.2

end Code

/-! ## What the operations leave alone -/

/-- So far the disk differs from its start at the temporary file only, and only
the two files have been named. -/
structure Untouched (contents : Str → Option (List UInt8)) (filename temp : Str)
    (d : Disk) : Prop where
  files : ∀ path, path ≠ temp → d.files path = (Disk.start contents).files path
  log : ∀ e ∈ d.log, ∀ path, path ≠ temp →
    e.files path = (Disk.start contents).files path
  named : ∀ e ∈ d.log, ∀ path ∈ e.op.paths, path = filename ∨ path = temp

section Untouched

variable {contents : Str → Option (List UInt8)} {filename temp : Str} {d : Disk}
  {outcome : ℕ → Outcome}

theorem untouched_start : Untouched contents filename temp (Disk.start contents) where
  files _ _ := rfl
  log _ he := absurd he List.not_mem_nil
  named _ he := absurd he List.not_mem_nil

/-- An operation that changes the temporary file at most. -/
theorem Untouched.perform (h : Untouched contents filename temp d) {op : FileOp}
    {succeeded : Bool} {files : FileSystem}
    (hfiles : ∀ path, path ≠ temp → files path = d.files path)
    (hop : ∀ path ∈ op.paths, path = filename ∨ path = temp) :
    Untouched contents filename temp (d.perform op succeeded files) where
  files := by
    intro path hpath
    exact (hfiles path hpath).trans (h.files path hpath)
  log := by
    intro e he path hpath
    rcases List.mem_append.mp he with hold | hnew
    · exact h.log e hold path hpath
    · rw [List.mem_singleton.mp hnew]
      exact (hfiles path hpath).trans (h.files path hpath)
  named := by
    intro e he
    rcases List.mem_append.mp he with hold | hnew
    · exact h.named e hold
    · rw [List.mem_singleton.mp hnew]
      exact hop

theorem Untouched.perform_same (h : Untouched contents filename temp d) {op : FileOp}
    {succeeded : Bool} (hop : ∀ path ∈ op.paths, path = filename ∨ path = temp) :
    Untouched contents filename temp (d.perform op succeeded d.files) :=
  h.perform (fun _ _ => rfl) hop

theorem Untouched.perform_update (h : Untouched contents filename temp d) {op : FileOp}
    {succeeded : Bool} {file : Option File}
    (hop : ∀ path ∈ op.paths, path = filename ∨ path = temp) :
    Untouched contents filename temp
      (d.perform op succeeded (Function.update d.files temp file)) :=
  h.perform (fun _ hpath => Function.update_of_ne hpath file d.files) hop

theorem Untouched.fopen (h : Untouched contents filename temp d) :
    Untouched contents filename temp (d.fopen outcome temp).2 := by
  unfold Disk.fopen
  cases d.next outcome with
  | success => exact h.perform_update (by simp [FileOp.paths])
  | failure leaves => exact h.perform_same (by simp [FileOp.paths])

theorem Untouched.write (h : Untouched contents filename temp d) (bytes : List UInt8) :
    Untouched contents filename temp (d.write outcome temp bytes).2 := by
  unfold Disk.write
  cases d.next outcome with
  | success => exact h.perform_update (by simp [FileOp.paths])
  | failure leaves => exact h.perform_update (by simp [FileOp.paths])

theorem Untouched.fclose (h : Untouched contents filename temp d) :
    Untouched contents filename temp (d.fclose outcome temp).2 := by
  unfold Disk.fclose
  cases d.next outcome with
  | success => exact h.perform_same (by simp [FileOp.paths])
  | failure leaves => exact h.perform_update (by simp [FileOp.paths])

theorem Untouched.chmod (h : Untouched contents filename temp d) :
    Untouched contents filename temp (d.chmod outcome temp).2 := by
  unfold Disk.chmod
  cases d.next outcome with
  | success => exact h.perform_same (by simp [FileOp.paths])
  | failure leaves => exact h.perform_same (by simp [FileOp.paths])

end Untouched

/-! ## Writing -/

section Writing

variable {contents : Str → Option (List UInt8)} {filename temp : Str} {d : Disk}
  {outcome : ℕ → Outcome}

structure Written (contents : Str → Option (List UInt8)) (filename temp : Str)
    (text : List UInt8) (d : Disk) : Prop extends Untouched contents filename temp d where
  temp : d.files temp = some { content := text, origin := .call }

/-- The result of some writes: on success the text is behind what was there, and
in any case nothing but the temporary file is touched. -/
def Writes (contents : Str → Option (List UInt8)) (filename temp : Str)
    (text : List UInt8) (r : Bool × Disk) : Prop :=
  Untouched contents filename temp r.2 ∧
    (r.1 = true → Written contents filename temp text r.2)

theorem Written.writes {text : List UInt8} (h : Written contents filename temp text d) :
    Writes contents filename temp text (true, d) :=
  ⟨h.toUntouched, fun _ => h⟩

theorem Writes.andThen {text text' : List UInt8} {r : Bool × Disk} {k : Disk → Bool × Disk}
    (h : Writes contents filename temp text r)
    (hk : ∀ d, Written contents filename temp text d →
      Writes contents filename temp text' (k d)) :
    Writes contents filename temp text' (andThen r k) := by
  unfold Config.andThen
  by_cases hr : r.1 = true
  · rw [if_pos hr]
    exact hk r.2 (h.2 hr)
  · rw [if_neg hr]
    exact ⟨h.1, fun hr' => absurd hr' hr⟩

theorem Written.write {text : List UInt8} (h : Written contents filename temp text d)
    (bytes : List UInt8) :
    Writes contents filename temp (text ++ bytes) (d.write outcome temp bytes) := by
  refine ⟨h.toUntouched.write bytes, ?_⟩
  intro hr
  refine ⟨h.toUntouched.write bytes, ?_⟩
  unfold Disk.write at hr ⊢
  cases hnext : d.next outcome with
  | success => simp [Disk.perform, Disk.put, h.temp]
  | failure leaves =>
      rw [hnext] at hr
      cases hr

theorem Written.writeEntries {text : List UInt8} (h : Written contents filename temp text d)
    (entries : List Entry) :
    Writes contents filename temp
      (text ++ entries.flatMap fun entry => entryLine entry ++ [10])
      (writeEntries outcome temp entries d) := by
  induction entries generalizing text d with
  | nil =>
      rw [List.flatMap_nil, List.append_nil]
      exact h.writes
  | cons entry entries ih =>
      rw [List.flatMap_cons, ← List.append_assoc]
      exact (h.write _).andThen fun d hd => ih hd

theorem Written.writeSections {text : List UInt8} (h : Written contents filename temp text d)
    (sections : List Section) :
    Writes contents filename temp (text ++ sectionsText sections)
      (writeSections outcome temp sections d) := by
  induction sections generalizing text d with
  | nil =>
      rw [sectionsText, List.append_nil]
      exact h.writes
  | cons sec sections ih =>
      unfold Config.writeSections
      refine (h.write (headerLine sec.name ++ [10])).andThen fun d hd => ?_
      refine (hd.writeEntries sec.entries).andThen fun d hd => ?_
      have htext : text ++ (headerLine sec.name ++ [10]) ++
          sec.entries.flatMap (fun entry => entryLine entry ++ [10]) = text ++ sectionText sec := by
        simp [sectionText]
      rw [htext] at hd
      cases sections with
      | nil => exact hd.writes
      | cons sec' sections =>
          have hall : text ++ sectionsText (sec :: sec' :: sections) =
              text ++ sectionText sec ++ [10] ++ sectionsText (sec' :: sections) := by
            simp [sectionsText]
          rw [if_neg (List.cons_ne_nil sec' sections), hall]
          exact (hd.write [10]).andThen fun d hd => ih hd

end Writing

/-! ## The call -/

section Call

variable {contents : Str → Option (List UInt8)} {filename temp : Str} {d : Disk}
  {outcome : ℕ → Outcome} {config : Config}

/-- How a call can end: with the saved config in the file, or with the file as it
was and the temporary file unlinked, if `unlink` succeeds. -/
inductive Ending (contents : Str → Option (List UInt8)) (filename temp : Str)
    (text : List UInt8) : Bool × Disk → Prop
  | saved (d : Disk) (files : FileSystem) :
      Untouched contents filename temp d →
      files = Function.update
        (Function.update d.files filename (some { content := text, origin := .call }))
        temp none →
      Ending contents filename temp text
        (true, d.perform (.rename temp filename) true files)
  | discarded (d : Disk) (succeeded : Bool) (files : FileSystem) :
      Untouched contents filename temp d →
      (∀ path, path ≠ temp → files path = d.files path) →
      (succeeded = true → files temp = none) →
      Ending contents filename temp text
        (false, d.perform (.unlink temp) succeeded files)

theorem ending_discard (h : Untouched contents filename temp d) (text : List UInt8) :
    Ending contents filename temp text (discard outcome temp d) := by
  unfold discard Disk.unlink
  cases d.next outcome with
  | success =>
      refine .discarded d true _ h ?_ ?_
      · exact fun path hpath => Function.update_of_ne hpath none d.files
      · exact fun _ => Function.update_self temp none d.files
  | failure leaves => exact .discarded d false _ h (fun _ _ => rfl) (by simp)

theorem ending_commit {text : List UInt8} (h : Written contents filename temp text d) :
    Ending contents filename temp text (commit outcome temp filename d) := by
  have hchmod : Untouched contents filename temp (d.chmod outcome temp).2 :=
    h.toUntouched.chmod
  unfold commit andThen
  cases hmode : (d.chmod outcome temp).1 with
  | false =>
      simp only [hmode, Bool.false_eq_true, if_false]
      exact ending_discard hchmod text
  | true =>
      have htemp : (d.chmod outcome temp).2.files temp =
          some { content := text, origin := .call } := by
        rw [← h.temp]
        unfold Disk.chmod
        cases d.next outcome <;> rfl
      simp only [if_true]
      generalize (d.chmod outcome temp).2 = d' at hchmod htemp ⊢
      unfold Disk.rename
      cases d'.next outcome with
      | success =>
          simp only [if_true]
          refine .saved d' _ hchmod ?_
          rw [htemp]
      | failure leaves =>
          simp only [Bool.false_eq_true, if_false]
          exact ending_discard (hchmod.perform_same (by simp [FileOp.paths])) text

theorem ending_configSave (contents : Str → Option (List UInt8)) (filename : Str)
    (config : Config) (outcome : ℕ → Outcome) :
    Ending contents filename (filename ++ newSuffix) (save config)
      (configSave outcome config filename (Disk.start contents)) := by
  generalize htemp : filename ++ newSuffix = temp
  have hopened : Untouched contents filename temp
      ((Disk.start contents).fopen outcome temp).2 := untouched_start.fopen
  unfold configSave
  simp only [htemp]
  cases hopen : ((Disk.start contents).fopen outcome temp).1 with
  | false =>
      simp only [Bool.false_eq_true, if_false]
      exact ending_discard hopened _
  | true =>
      have hempty : Written contents filename temp []
          ((Disk.start contents).fopen outcome temp).2 := by
        refine ⟨hopened, ?_⟩
        unfold Disk.fopen at hopen ⊢
        cases hnext : (Disk.start contents).next outcome with
        | success => exact Function.update_self temp _ _
        | failure leaves =>
            rw [hnext] at hopen
            cases hopen
      simp only [if_true]
      generalize ((Disk.start contents).fopen outcome temp).2 = d at hempty
      have hwrites : Writes contents filename temp ([] ++ sectionsText config.sections)
          (writeSections outcome temp config.sections d) := hempty.writeSections config.sections
      obtain ⟨huntouched, hwritten⟩ := hwrites
      generalize hr : writeSections outcome temp config.sections d = r at huntouched hwritten ⊢
      obtain ⟨ok, d'⟩ := r
      have hclosed : Untouched contents filename temp (d'.fclose outcome temp).2 :=
        huntouched.fclose
      by_cases hboth : (ok && (d'.fclose outcome temp).1) = true
      · rw [if_pos hboth]
        rw [Bool.and_eq_true] at hboth
        refine ending_commit ⟨hclosed, ?_⟩
        have htext := (hwritten hboth.1).temp
        rw [List.nil_append] at htext
        have hok := hboth.2
        unfold Disk.fclose at hok ⊢
        cases hnext : d'.next outcome with
        | success => exact htext
        | failure leaves =>
            rw [hnext] at hok
            cases hok
      · rw [if_neg hboth]
        exact ending_discard hclosed _

theorem append_newSuffix_ne (filename : Str) : filename ≠ filename ++ newSuffix := by
  intro h
  have hlen := congrArg List.length h
  rw [List.length_append] at hlen
  exact absurd hlen (by simp [newSuffix])

end Call

/-! ## What the call returns -/

section Returned

variable {outcome : ℕ → Outcome} {path filename : Str} {d : Disk} {r : Bool × Disk}
  {k : Disk → Bool × Disk}

def Disk.Unfailing (d : Disk) : Prop := ∀ e ∈ d.log, e.succeeded = true

/-- The result is true if and only if no operation has failed. -/
def Reports (r : Bool × Disk) : Prop := r.1 = true ↔ r.2.Unfailing

theorem Disk.unfailing_perform {op : FileOp} {succeeded : Bool} {files : FileSystem} :
    (d.perform op succeeded files).Unfailing ↔ d.Unfailing ∧ succeeded = true := by
  simp only [Disk.Unfailing, Disk.perform, List.forall_mem_append, List.forall_mem_singleton]

theorem reports_perform (h : d.Unfailing) (op : FileOp) (succeeded : Bool)
    (files : FileSystem) : Reports (succeeded, d.perform op succeeded files) := by
  rw [Reports, Disk.unfailing_perform]
  exact (and_iff_right h).symm

theorem Reports.andThen (hr : Reports r) (hk : ∀ d, d.Unfailing → Reports (k d)) :
    Reports (andThen r k) := by
  unfold Config.andThen
  cases hok : r.1 with
  | true => exact hk r.2 (hr.mp hok)
  | false => exact hr

theorem reports_fopen (h : d.Unfailing) : Reports (d.fopen outcome path) := by
  unfold Disk.fopen
  cases d.next outcome <;> exact reports_perform h _ _ _

theorem reports_write (h : d.Unfailing) (bytes : List UInt8) :
    Reports (d.write outcome path bytes) := by
  unfold Disk.write
  cases d.next outcome <;> exact reports_perform h _ _ _

theorem reports_chmod (h : d.Unfailing) : Reports (d.chmod outcome path) := by
  unfold Disk.chmod
  cases d.next outcome <;> exact reports_perform h _ _ _

theorem reports_rename (h : d.Unfailing) : Reports (d.rename outcome path filename) := by
  unfold Disk.rename
  cases d.next outcome <;> exact reports_perform h _ _ _

theorem reports_writeEntries (entries : List Entry) (h : d.Unfailing) :
    Reports (writeEntries outcome path entries d) := by
  induction entries generalizing d with
  | nil => exact iff_of_true rfl h
  | cons entry entries ih => exact (reports_write h _).andThen fun _ h => ih h

theorem reports_writeSections (sections : List Section) (h : d.Unfailing) :
    Reports (writeSections outcome path sections d) := by
  induction sections generalizing d with
  | nil => exact iff_of_true rfl h
  | cons sec sections ih =>
      refine (reports_write h _).andThen fun d h => ?_
      refine (reports_writeEntries sec.entries h).andThen fun d h => ?_
      refine Reports.andThen ?_ fun _ h => ih h
      split_ifs
      · exact iff_of_true rfl h
      · exact reports_write h _

/-- After a failure the label `error` is reached, and the log keeps the failure. -/
theorem reports_discard (h : ¬d.Unfailing) : Reports (discard outcome path d) := by
  refine iff_of_false Bool.false_ne_true fun hunlink => h ?_
  unfold discard Disk.unlink at hunlink
  cases hnext : d.next outcome <;> rw [hnext] at hunlink <;>
    exact (Disk.unfailing_perform.mp hunlink).1

theorem reports_commit (h : d.Unfailing) : Reports (commit outcome path filename d) := by
  have hmoved : Reports (andThen (d.chmod outcome path) fun d =>
      d.rename outcome path filename) := (reports_chmod h).andThen fun _ h => reports_rename h
  unfold commit
  dsimp only
  split_ifs with hok
  · exact iff_of_true rfl (hmoved.mp hok)
  · exact reports_discard fun hunfailing => hok (hmoved.mpr hunfailing)

theorem Disk.fclose_unfailing :
    (d.fclose outcome path).2.Unfailing ↔
      d.Unfailing ∧ (d.fclose outcome path).1 = true := by
  unfold Disk.fclose
  cases d.next outcome <;> exact Disk.unfailing_perform

/-- The call returns true if and only if all its operations succeed. -/
theorem configSave_eq_true_iff (outcome : ℕ → Outcome) (config : Config) (filename : Str)
    (contents : Str → Option (List UInt8)) :
    let r := configSave outcome config filename (Disk.start contents)
    r.1 = true ↔ ∀ e ∈ r.2.log, e.succeeded = true := by
  change Reports (configSave outcome config filename (Disk.start contents))
  have hstart : (Disk.start contents).Unfailing := fun _ he => absurd he List.not_mem_nil
  have hopened : Reports ((Disk.start contents).fopen outcome (filename ++ newSuffix)) :=
    reports_fopen hstart
  unfold configSave
  dsimp only
  split_ifs with hopen hwritten
  · have hsections : Reports (writeSections outcome (filename ++ newSuffix) config.sections
        ((Disk.start contents).fopen outcome (filename ++ newSuffix)).2) :=
      reports_writeSections config.sections (hopened.mp hopen)
    rw [Bool.and_eq_true] at hwritten
    exact reports_commit (Disk.fclose_unfailing.mpr ⟨hsections.mp hwritten.1, hwritten.2⟩)
  · have hsections : Reports (writeSections outcome (filename ++ newSuffix) config.sections
        ((Disk.start contents).fopen outcome (filename ++ newSuffix)).2) :=
      reports_writeSections config.sections (hopened.mp hopen)
    refine reports_discard fun hclosed => hwritten ?_
    rw [Bool.and_eq_true]
    obtain ⟨hsaved, hclose⟩ := Disk.fclose_unfailing.mp hclosed
    exact ⟨hsections.mpr hsaved, hclose⟩
  · exact reports_discard fun hunfailing => hopen (hopened.mpr hunfailing)

end Returned

/-- For every config, every file system and every choice of outcomes, after each
operation the file has its old content or the whole saved config. The call
returns true exactly if in the end the file is the one this call has written,
with the whole saved config. If it returns false the file is as it was, and the
last operation was an `unlink` of the temporary file, which is gone if that
succeeded. No other file is changed or named. -/
theorem config_save_all_or_nothing (config : Config) (filename : Str)
    (contents : Str → Option (List UInt8)) (outcome : ℕ → Outcome) :
    let temp := filename ++ newSuffix
    let old := (Disk.start contents).files
    let saved : Option File := some { content := save config, origin := .call }
    let r := configSave outcome config filename (Disk.start contents)
    (∀ e ∈ r.2.log, e.files filename = old filename ∨ e.files filename = saved) ∧
    (r.1 = true ↔ r.2.files filename = saved) ∧
    (r.1 = false → r.2.files filename = old filename ∧
      ∃ e, r.2.log.getLast? = some e ∧ e.op = .unlink temp ∧
        (e.succeeded = true → r.2.files temp = none)) ∧
    (∀ path, path ≠ filename → path ≠ temp →
      r.2.files path = old path ∧ ∀ e ∈ r.2.log, e.files path = old path) ∧
    ∀ e ∈ r.2.log, ∀ path ∈ e.op.paths, path = filename ∨ path = temp := by
  intro temp old saved r
  have hne : filename ≠ temp := append_newSuffix_ne filename
  have hending : Ending contents filename temp (save config) r :=
    ending_configSave contents filename config outcome
  generalize r = r at hending
  cases hending with
  | saved d files h hfiles =>
      have hother : ∀ path, path ≠ filename → path ≠ temp → files path = old path := by
        intro path hpath htemp
        rw [hfiles, Function.update_of_ne htemp, Function.update_of_ne hpath,
          h.files path htemp]
      have hfile : files filename = saved := by
        rw [hfiles, Function.update_of_ne hne, Function.update_self]
      refine ⟨?_, iff_of_true rfl hfile, by simp, ?_, ?_⟩
      · intro e he
        rcases List.mem_append.mp he with hold | hnew
        · exact Or.inl (h.log e hold filename hne)
        · rw [List.mem_singleton.mp hnew]
          exact Or.inr hfile
      · intro path hpath htemp
        refine ⟨hother path hpath htemp, ?_⟩
        intro e he
        rcases List.mem_append.mp he with hold | hnew
        · exact h.log e hold path htemp
        · rw [List.mem_singleton.mp hnew]
          exact hother path hpath htemp
      · intro e he path hpath
        rcases List.mem_append.mp he with hold | hnew
        · exact h.named e hold path hpath
        · rw [List.mem_singleton.mp hnew] at hpath
          simpa [FileOp.paths, or_comm] using hpath
  | discarded d succeeded files h hsame hgone =>
      have hafter : Untouched contents filename temp
          (d.perform (.unlink temp) succeeded files) := h.perform hsame (by simp [FileOp.paths])
      have hfile : files filename = old filename := hafter.files filename hne
      refine ⟨fun e he => Or.inl (hafter.log e he filename hne), ?_, ?_, ?_, hafter.named⟩
      · refine iff_of_false (by simp) ?_
        intro hsaved
        -- nothing that was there before is written by the call
        have horigin := hfile.symm.trans hsaved
        simp only [old, Disk.start, saved] at horigin
        cases hold : contents filename with
        | none => simp [hold] at horigin
        | some content => simp [hold] at horigin
      · intro _
        exact ⟨hfile, _, List.getLast?_concat, rfl, hgone⟩
      · intro path _ htemp
        exact ⟨hafter.files path htemp, fun e he => hafter.log e he path htemp⟩

end Config

end Osi
